import EdgeConnect.Ingest.Book

/-!
# When a synced order-level book is a prefix of the publisher's history

The publisher's side is abstract, as for the price-level book: a `History` is the numbered list of
order deltas of one instrument, `book k` the orders resting after the first `k` of them, a `Group` a
snapshot captured after one of them, and `Sent H G` the calls that carry one of these messages.

A group counts its messages, not its orders, so a lost order and a repeated one cancel out
(`synced_book_is_not_exact`).  `CountsOnce` says that a step does not repeat an order the open group
already holds; in every run of such steps

* `Inv` — a synced book is `H.book` of its sequence and remembers as removed only ids the history has
  added, a group under assembly holds part of a genuine snapshot and has counted what it holds;
* `synced_book_is_exact` — whenever the book is synced it is `H.book` at its own sequence.
-/

set_option autoImplicit false

namespace EdgeConnect.Mbo

/-! ## The publisher -/

/-- What a delta means for a set of resting orders without caps and tombstones. -/
def onOrders (o : Orders) : DeltaKind → Orders
  | .add id isBid price qty => o.insert id ⟨isBid, price, qty⟩
  | .cancel id => o.erase id
  | .execute id qty full =>
    match o.get id with
    | none => o
    | some r => if full then o.erase id else o.insert id { r with qtyRaw := r.qtyRaw - qty }

/-- The orders resting after a list of deltas. -/
def bookOf (deltas : List DeltaOp) : Orders := deltas.foldl (fun o d => onOrders o d.kind) ∅

/-- The delta adds order `id`. -/
def DeltaKind.Adds (id : Nat) : DeltaKind → Prop
  | .add id' _ _ _ => id' = id
  | .cancel _ | .execute _ _ _ => False

instance (id : Nat) : ∀ kind : DeltaKind, Decidable (kind.Adds id)
  | .add id' _ _ _ => inferInstanceAs (Decidable (id' = id))
  | .cancel _ | .execute _ _ _ => inferInstanceAs (Decidable False)

/-- What a publisher may send after `earlier`: an id is added once, with a positive quantity; an
execution takes no more than what rests, and is a full fill exactly when it takes all of it. -/
def Genuine (earlier : List DeltaOp) : DeltaKind → Prop
  | .add id _ _ qty => 0 < qty ∧ ∀ d ∈ earlier, ¬ d.kind.Adds id
  | .cancel _ => True
  | .execute id qty full => ∀ r ∈ (bookOf earlier).get id,
      qty ≤ r.qtyRaw ∧ (full = true ↔ qty = r.qtyRaw)

instance (earlier : List DeltaOp) : ∀ kind : DeltaKind, Decidable (Genuine earlier kind)
  | .add id _ _ qty => inferInstanceAs (Decidable (0 < qty ∧ ∀ d ∈ earlier, ¬ d.kind.Adds id))
  | .cancel _ => inferInstanceAs (Decidable True)
  | .execute id qty full => inferInstanceAs (Decidable (∀ r ∈ (bookOf earlier).get id,
      qty ≤ r.qtyRaw ∧ (full = true ↔ qty = r.qtyRaw)))

/-- A publisher's order deltas for one instrument, numbered from `1`. -/
structure History where
  deltas : List DeltaOp
  seq_eq : ∀ i (h : i < deltas.length), deltas[i].seq = i + 1
  mktdata_mono : deltas.Pairwise fun a b => a.mktdataSeq ≤ b.mktdataSeq
  genuine : ∀ i (h : i < deltas.length), Genuine (deltas.take i) deltas[i].kind

/-- The orders resting after the first `k` deltas. -/
def History.book (H : History) (k : Nat) : Orders := bookOf (H.deltas.take k)

/-- A genuine snapshot group, captured after delta `lastInstrumentSeq`. -/
structure Group (H : History) where
  snapshotId : Nat
  anchorSeq : Nat
  lastInstrumentSeq : Nat
  captured : lastInstrumentSeq ≤ H.deltas.length
  anchored : ∀ i (h : i < H.deltas.length),
    H.deltas[i].mktdataSeq ≤ anchorSeq ↔ i < lastInstrumentSeq

def Group.book {H : History} (g : Group H) : Orders := H.book g.lastInstrumentSeq

def Group.totalOrders {H : History} (g : Group H) : Nat := g.book.size

/-- A call that carries a message of the history or of one of its snapshot groups, or resets the
book. -/
def Sent (H : History) (G : Set (Group H)) : Call → Prop
  | .delta op => op ∈ H.deltas
  | .snapshotBegin id anchor total last => ∃ g ∈ G, id = g.snapshotId ∧ anchor = g.anchorSeq ∧
      total = g.totalOrders ∧ last = g.lastInstrumentSeq
  | .snapshotOrder id order isBid price qty => ∃ g ∈ G, id = g.snapshotId ∧
      g.book.get order = some ⟨isBid, price, qty⟩
  | .snapshotEnd anchor id => ∃ g ∈ G, anchor = g.anchorSeq ∧ id = g.snapshotId
  | .instrumentReset _ | .endOfSession => True

/-- The call does not repeat an order that the group it belongs to already holds. -/
def CountsOnce (b : BookState) : Call → Prop
  | .snapshotOrder id order _ _ _ => ∀ g, b.building = some g → g.snapshotId = id →
      g.orders.size < MAX_ORDERS_PER_BOOK → g.orders.contains order = false
  | _ => True

variable {H : History} {G : Set (Group H)} {b : BookState}

/-- An order rests only if it was resting before or one of the deltas added it. -/
theorem added_of_resting {id : Nat} {r : RestingOrder} :
    ∀ (deltas : List DeltaOp) (o : Orders),
      (deltas.foldl (fun o d => onOrders o d.kind) o).get id = some r →
      (∃ r', o.get id = some r') ∨ ∃ d ∈ deltas, d.kind.Adds id
  | [], o, h => Or.inl ⟨r, h⟩
  | d :: ds, o, h => by
    rcases added_of_resting ds _ h with ⟨r', hr'⟩ | ⟨d', hd', ha⟩
    · simp only at hr'
      cases hk : d.kind with
      | add id' isBid price qty =>
        rw [hk, onOrders, FinMap.get_insert] at hr'
        split at hr'
        · rename_i heq
          exact Or.inr ⟨d, List.mem_cons_self, by rw [hk, heq]; rfl⟩
        · exact Or.inl ⟨r', hr'⟩
      | cancel id' =>
        rw [hk, onOrders, FinMap.get_erase] at hr'
        split at hr'
        · cases hr'
        · exact Or.inl ⟨r', hr'⟩
      | execute id' qty full =>
        left
        cases hg : o.get id with
        | some r'' => exact ⟨r'', rfl⟩
        | none =>
          rw [hk, onOrders] at hr'
          split at hr'
          · rw [hg] at hr'; cases hr'
          · rename_i r'' hr''
            have hne : id ≠ id' := fun he => by rw [← he, hg] at hr''; cases hr''
            split at hr'
            · rw [FinMap.get_erase_of_ne _ hne, hg] at hr'; cases hr'
            · rw [FinMap.get_insert_of_ne _ _ hne, hg] at hr'; cases hr'
    · exact Or.inr ⟨d', List.mem_cons_of_mem _ hd', ha⟩

theorem History.added_of_book {k id : Nat} {r : RestingOrder} (h : (H.book k).get id = some r) :
    ∃ d ∈ H.deltas.take k, d.kind.Adds id := by
  rcases added_of_resting _ _ h with ⟨r', hr'⟩ | hd
  · cases hr'
  · exact hd

theorem History.deltas_get {k : Nat} {op : DeltaOp} (hop : op ∈ H.deltas) (hseq : op.seq = k + 1) :
    ∃ h : k < H.deltas.length, H.deltas[k] = op := by
  obtain ⟨i, hi, rfl⟩ := List.mem_iff_getElem.mp hop
  have hik : i = k := by have := H.seq_eq i hi; omega
  subst hik
  exact ⟨hi, rfl⟩

theorem History.book_succ {k : Nat} (h : k < H.deltas.length) :
    H.book (k + 1) = onOrders (H.book k) H.deltas[k].kind := by
  unfold History.book bookOf
  rw [List.take_add_one, List.getElem?_eq_getElem h, Option.toList_some, List.foldl_append]
  rfl

theorem History.take_succ_subset (k : Nat) {d : DeltaOp} (h : d ∈ H.deltas.take k) :
    d ∈ H.deltas.take (k + 1) :=
  (List.take_subset_take_left _ (Nat.le_succ k)) h

/-! ## One delta -/

theorem trimRemoved_subset : ∀ (q : List Nat) (r : Finset Nat),
    (BookState.trimRemoved r q).1 ⊆ r
  | [], r => by rw [BookState.trimRemoved]
  | oldest :: rest, r => by
    unfold BookState.trimRemoved
    split
    · exact (trimRemoved_subset rest _).trans (Finset.erase_subset _ _)
    · exact Finset.Subset.refl r

theorem mem_noteRemoved {id x : Nat} (h : x ∈ (b.noteRemoved id).removed) :
    x ∈ b.removed ∨ x = id := by
  unfold BookState.noteRemoved at h
  split at h
  · exact Or.inl h
  · have := trimRemoved_subset _ _ h
    rw [Finset.mem_insert] at this
    exact this.symm

/-- A delta only remembers as removed an order that was resting. -/
theorem mem_removed_of_apply {kind : DeltaKind} {x : Nat} (h : x ∈ (b.apply kind).1.removed) :
    x ∈ b.removed ∨ ∃ r, b.orders.get x = some r := by
  cases kind with
  | add id isBid price qty =>
    unfold BookState.apply at h
    simp only at h
    split at h
    · exact Or.inl h
    · split at h
      · exact Or.inl h
      · exact Or.inl (by simpa using h)
  | cancel id =>
    unfold BookState.apply at h
    simp only at h
    split at h
    · exact Or.inl h
    · rename_i o ho
      rcases mem_noteRemoved h with h | rfl
      · exact Or.inl (by simpa using h)
      · exact Or.inr ⟨o, ho⟩
  | execute id qty full =>
    unfold BookState.apply at h
    simp only at h
    split at h
    · exact Or.inl h
    · rename_i o ho
      split at h
      · rcases mem_noteRemoved h with h | rfl
        · exact Or.inl (by simpa using h)
        · exact Or.inr ⟨o, ho⟩
      · exact Or.inl (by simpa using h)

/-- **One genuine delta**: the book drops to `Recovering`, or its orders are the publisher's. -/
theorem apply_orders {earlier : List DeltaOp} {kind : DeltaKind} (hgen : Genuine earlier kind)
    (horders : b.orders = bookOf earlier)
    (hremoved : ∀ x ∈ b.removed, ∃ d ∈ earlier, d.kind.Adds x) :
    (b.apply kind).1.state = .recovering ∨ (b.apply kind).1.orders = onOrders b.orders kind := by
  cases kind with
  | add id isBid price qty =>
    have hfresh : id ∉ b.removed := by
      intro hmem
      obtain ⟨d, hd, ha⟩ := hremoved id hmem
      exact hgen.2 d hd ha
    unfold BookState.apply
    simp only [if_neg hfresh]
    split
    · exact Or.inl rfl
    · right; simp [onOrders]
  | cancel id =>
    right
    unfold BookState.apply onOrders
    simp only
    split
    · rename_i hn
      ext1 k
      rw [FinMap.get_erase]
      split
      · rename_i hk; rw [hk, hn]
      · rfl
    · simp
  | execute id qty full =>
    right
    unfold BookState.apply onOrders
    simp only
    cases ho : b.orders.get id with
    | none => rfl
    | some r =>
      obtain ⟨hle, hfull⟩ := hgen r (by rw [← horders]; exact ho)
      have hmin : min qty r.qtyRaw = qty := Nat.min_eq_left hle
      simp only [hmin]
      cases full with
      | true => simp
      | false =>
        -- a partial fill leaves something resting
        have hne : qty ≠ r.qtyRaw := fun he => by simpa using hfull.mpr he
        have hrest : ¬ r.qtyRaw - qty = 0 := by omega
        simp [hrest]

/-! ## The invariant -/

/-- The group under assembly holds part of a genuine snapshot and has counted what it holds. -/
def Assembles (G : Set (Group H)) (g : Building) : Prop :=
  ∃ grp ∈ G, g.snapshotId = grp.snapshotId ∧ g.totalOrders = grp.totalOrders ∧
    g.lastInstrumentSeq = grp.lastInstrumentSeq ∧ g.orders.Le grp.book ∧
    g.receivedOrders = g.orders.size ∧ g.orders.size ≤ MAX_ORDERS_PER_BOOK

/-- A synced book is the publisher's at its own sequence. -/
structure Exact (H : History) (b : BookState) : Prop where
  applied : b.lastInstrSeq ≤ H.deltas.length
  orders : b.orders = H.book b.lastInstrSeq
  removed : ∀ x ∈ b.removed, ∃ d ∈ H.deltas.take b.lastInstrSeq, d.kind.Adds x

/-- What every step of a publisher's history that counts once preserves. -/
structure Inv (G : Set (Group H)) (b : BookState) : Prop where
  synced : b.state = .synced → Exact H b
  group : ∀ g, b.building = some g → Assembles G g
  pending : ∀ op ∈ b.pending, op ∈ H.deltas

theorem Inv.new : Inv G BookState.new :=
  ⟨nofun, nofun, nofun⟩

/-- The next delta in sequence keeps a synced book exact, unless it drops it to `Recovering`. -/
theorem Exact.apply (h : Exact H b) {op : DeltaOp} (hop : op ∈ H.deltas)
    (hseq : op.seq = b.lastInstrSeq + 1)
    (hsync : ((b.advance op).apply op.kind).1.state = .synced) :
    Exact H ((b.advance op).apply op.kind).1 := by
  obtain ⟨hk, hget⟩ := History.deltas_get hop hseq
  have hframe := (b.advance op).apply_frame op.kind
  have hlast : ((b.advance op).apply op.kind).1.lastInstrSeq = b.lastInstrSeq + 1 := by
    rw [hframe.lastInstrSeq]; exact hseq
  have horders : (b.advance op).orders = H.book b.lastInstrSeq := h.orders
  have hgen : Genuine (H.deltas.take b.lastInstrSeq) op.kind := by
    have := H.genuine _ hk
    rwa [hget] at this
  refine ⟨by rw [hlast]; exact hk, ?_, fun x hx => ?_⟩
  · rcases apply_orders hgen horders h.removed with hrec | ho
    · rw [hrec] at hsync; cases hsync
    · rw [hlast, History.book_succ hk, hget, ho, horders]
  · rw [hlast]
    rcases mem_removed_of_apply hx with hx | ⟨r, hr⟩
    · obtain ⟨d, hd, ha⟩ := h.removed x hx
      exact ⟨d, H.take_succ_subset _ hd, ha⟩
    · rw [horders] at hr
      obtain ⟨d, hd, ha⟩ := H.added_of_book hr
      exact ⟨d, H.take_succ_subset _ hd, ha⟩

theorem Inv.applyOrRecover (h : Inv G b) (hs : b.state = .synced) {op : DeltaOp}
    (hop : op ∈ H.deltas) : Inv G (b.applyOrRecover op).1 := by
  rcases b.applyOrRecover_cases op with ⟨-, he⟩ | ⟨-, he⟩ | ⟨hseq, he⟩ <;> rw [he]
  · exact h
  · refine ⟨nofun, h.group, fun o ho => ?_⟩
    rw [List.mem_singleton.mp ho]; exact hop
  · have hframe := (b.advance op).apply_frame op.kind
    refine ⟨fun hsync => (h.synced hs).apply hop hseq hsync, fun g hg => ?_, fun o ho => ?_⟩
    · rw [hframe.building] at hg; exact h.group g hg
    · rw [hframe.pending] at ho; exact h.pending o ho

theorem Inv.replay : ∀ (ops : List DeltaOp) {b : BookState}, Inv G b → b.state = .synced →
    (∀ op ∈ ops, op ∈ H.deltas) → Inv G (b.replay ops)
  | [], _, h, _, _ => h
  | op :: ops, b, h, hs, hops => by
    have h' := h.applyOrRecover hs (hops op List.mem_cons_self)
    unfold BookState.replay
    split
    · exact h'
    · rename_i hne
      have hs' : (b.applyOrRecover op).1.state = .synced := by
        cases hst : (b.applyOrRecover op).1.state with
        | synced => rfl
        | recovering => exact absurd hst hne
      exact Inv.replay ops h' hs' fun o ho => hops o (List.mem_cons_of_mem _ ho)

/-! ## One call -/

theorem Inv.onDeltaReporting (h : Inv G b) {op : DeltaOp} (hop : op ∈ H.deltas) :
    Inv G (b.onDeltaReporting op).1 := by
  unfold BookState.onDeltaReporting
  split
  · rename_i hs
    simp only
    split
    · refine ⟨fun hsync => ?_, h.group, fun o ho => ?_⟩
      · exact absurd (hs.symm.trans hsync) (by decide)
      · rcases List.mem_append.mp ho with ho | ho
        · exact h.pending o ho
        · rw [List.mem_singleton.mp ho]; exact hop
    · exact h
  · rename_i hs; exact h.applyOrRecover hs hop

theorem Inv.onSnapshotBegin (h : Inv G b) {grp : Group H} (hg : grp ∈ G) :
    Inv G (b.onSnapshotBegin grp.snapshotId grp.anchorSeq grp.totalOrders
      grp.lastInstrumentSeq) := by
  have hnone : Inv G { b with building := none } :=
    ⟨fun hs => let e := h.synced hs; ⟨e.applied, e.orders, e.removed⟩, nofun, h.pending⟩
  unfold BookState.onSnapshotBegin
  split
  · exact hnone
  · split
    · exact hnone
    · refine ⟨fun hs => let e := h.synced hs; ⟨e.applied, e.orders, e.removed⟩, ?_, h.pending⟩
      intro g hgo
      simp only [Option.some.injEq] at hgo
      subst hgo
      exact ⟨grp, hg, rfl, rfl, rfl, fun k v hv => (by cases hv), rfl, Nat.zero_le _⟩

/-- One order of the snapshot that the group does not hold yet extends it by itself. -/
theorem Assembles.add (hinj : ∀ g ∈ G, ∀ g' ∈ G, g.snapshotId = g'.snapshotId → g = g')
    {g : Building} (h : Assembles G g) {grp : Group H} (hg : grp ∈ G)
    (hid : g.snapshotId = grp.snapshotId) (hcap : g.orders.size < MAX_ORDERS_PER_BOOK)
    {order : Nat} {isBid : Bool} {price : Int} {qty : Nat}
    (hnew : g.orders.contains order = false)
    (hget : grp.book.get order = some ⟨isBid, price, qty⟩) :
    Assembles G (g.add order isBid price qty) := by
  obtain ⟨grp', hg', hid', htot, hlast, hle, hrecv, -⟩ := h
  obtain rfl : grp' = grp := hinj _ hg' _ hg (hid'.symm.trans hid)
  have hsize : (g.add order isBid price qty).orders.size = g.orders.size + 1 := by
    simp only [Building.add, FinMap.size_insert, hnew, Bool.false_eq_true, if_false]
  refine ⟨grp', hg', hid', htot, hlast, hle.insert hget, ?_, by omega⟩
  have hbound : MAX_ORDERS_PER_BOOK < 2 ^ 32 := by decide
  rw [hsize]
  simp only [Building.add]
  rw [hrecv, Nat.mod_eq_of_lt (by omega)]

theorem Inv.onSnapshotOrder (hinj : ∀ g ∈ G, ∀ g' ∈ G, g.snapshotId = g'.snapshotId → g = g')
    (h : Inv G b) {grp : Group H} (hg : grp ∈ G) {order : Nat} {isBid : Bool} {price : Int}
    {qty : Nat} (hget : grp.book.get order = some ⟨isBid, price, qty⟩)
    (honce : CountsOnce b (.snapshotOrder grp.snapshotId order isBid price qty)) :
    Inv G (b.onSnapshotOrder grp.snapshotId order isBid price qty) := by
  unfold BookState.onSnapshotOrder
  split
  · exact h
  · rename_i g hopen
    split
    · rename_i hok
      obtain ⟨hid, hcap⟩ := hok
      refine ⟨fun hs => let e := h.synced hs; ⟨e.applied, e.orders, e.removed⟩, ?_, h.pending⟩
      intro g' hg'
      simp only [Option.some.injEq] at hg'
      subst hg'
      exact (h.group g hopen).add hinj hg hid hcap (honce g hopen hid hcap) hget
    · exact h

/-- **A complete group is the genuine book**: it holds part of it and as many orders. -/
theorem Assembles.complete {g : Building} (h : Assembles G g)
    (hfull : g.receivedOrders = g.totalOrders) :
    g.lastInstrumentSeq ≤ H.deltas.length ∧ g.orders = H.book g.lastInstrumentSeq := by
  obtain ⟨grp, -, -, htot, hlast, hle, hrecv, -⟩ := h
  rw [hlast]
  refine ⟨grp.captured, FinMap.eq_of_le_of_size hle ?_⟩
  have : grp.totalOrders = g.orders.size := by omega
  exact Nat.le_of_eq this

theorem Inv.onSnapshotEnd (h : Inv G b) (anchor id : Nat) : Inv G (b.onSnapshotEnd anchor id).1 := by
  rcases b.onSnapshotEnd_cases anchor id with ⟨-, he⟩ | ⟨g, -, he⟩ | ⟨g, hopen, hfull, he⟩ <;> rw [he]
  · exact h
  · exact ⟨nofun, nofun, h.pending⟩
  · obtain ⟨hlen, hbook⟩ := (h.group g hopen).complete hfull
    have hinst : Inv G (b.install g) :=
      ⟨fun _ => ⟨hlen, hbook, fun x hx => absurd hx (Finset.notMem_empty x)⟩, nofun, nofun⟩
    exact Inv.replay _ hinst rfl fun op hop => h.pending op (b.mem_replayable hop)

theorem Inv.step (hinj : ∀ g ∈ G, ∀ g' ∈ G, g.snapshotId = g'.snapshotId → g = g')
    (h : Inv G b) {c : Call} (honce : CountsOnce b c) (hc : Sent H G c) : Inv G (step b c).1 := by
  cases c with
  | delta op => exact h.onDeltaReporting hc
  | snapshotBegin id anchor total last =>
    obtain ⟨g, hg, rfl, rfl, rfl, rfl⟩ := hc
    exact h.onSnapshotBegin hg
  | snapshotOrder id order isBid price qty =>
    obtain ⟨g, hg, rfl, hget⟩ := hc
    exact h.onSnapshotOrder hinj hg hget honce
  | snapshotEnd anchor id => exact h.onSnapshotEnd anchor id
  | instrumentReset s =>
    exact ⟨nofun, nofun, fun op hop => h.pending op (List.mem_of_mem_filter hop)⟩
  | endOfSession => exact ⟨nofun, nofun, nofun⟩

/-! ## Every run -/

/-- **The exact-prefix law of the order-level book.** Whatever part of a publisher's messages reaches
the book, in whatever order and how often: as long as no message repeats an order that the open group
already holds, a synced book rests exactly the orders of the first `last_instr_seq` deltas. -/
theorem synced_book_is_exact (H : History) (G : Set (Group H))
    (hids : ∀ g ∈ G, ∀ g' ∈ G, g.snapshotId = g'.snapshotId → g = g')
    (calls : List Call) (hsent : ∀ c ∈ calls, Sent H G c)
    (honce : machine.Along CountsOnce BookState.new calls)
    (hsync : (machine.exec BookState.new calls).isSynced = true) :
    (machine.exec BookState.new calls).lastInstrSeq ≤ H.deltas.length ∧
    (machine.exec BookState.new calls).orders =
      H.book (machine.exec BookState.new calls).lastInstrSeq := by
  have hinv : Inv G (machine.exec BookState.new calls) :=
    Machine.along_rule (fun _ _ hok h => h.step hids hok.1 hok.2) calls _
      (honce.and (Machine.along_of_forall calls _ hsent)) Inv.new
  have hexact := hinv.synced (by simpa [BookState.isSynced] using hsync)
  exact ⟨hexact.applied, hexact.orders⟩

/-- A bid and an ask of one instrument; then the bid is filled in part. -/
def threeDeltas : History where
  deltas := [⟨1, 10, 50, .add 1 true 6200 5⟩, ⟨2, 12, 60, .add 2 false 6300 7⟩,
    ⟨3, 14, 70, .execute 1 2 false⟩]
  seq_eq := by decide
  mktdata_mono := by decide
  genuine := by decide

/-- The snapshot captured once both orders rest. -/
def bothGroup : Group threeDeltas where
  snapshotId := 7
  anchorSeq := 13
  lastInstrumentSeq := 2
  captured := by decide
  anchored := by decide

theorem bothGroup_ids : ∀ g ∈ ({bothGroup} : Set (Group threeDeltas)),
    ∀ g' ∈ ({bothGroup} : Set (Group threeDeltas)), g.snapshotId = g'.snapshotId → g = g' := by
  rintro g rfl g' rfl _; rfl

/-- Each order of the snapshot once, then the fill, delivered twice. -/
def bothCalls : List Call :=
  [.snapshotBegin 7 13 2 2, .snapshotOrder 7 1 true 6200 5, .snapshotOrder 7 2 false 6300 7,
    .snapshotEnd 13 7, .delta ⟨3, 14, 70, .execute 1 2 false⟩, .delta ⟨3, 14, 70, .execute 1 2 false⟩]

theorem synced_book_is_exact_bothCalls :
    (machine.exec BookState.new bothCalls).lastInstrSeq = 3 ∧
    (machine.exec BookState.new bothCalls).orders = threeDeltas.book 3 := by
  have hsent : ∀ c ∈ bothCalls, Sent threeDeltas {bothGroup} c := by
    intro c hc
    simp only [bothCalls, List.mem_cons, List.not_mem_nil, or_false] at hc
    rcases hc with rfl | rfl | rfl | rfl | rfl | rfl
    · exact ⟨bothGroup, rfl, rfl, rfl, by decide, rfl⟩
    · exact ⟨bothGroup, rfl, rfl, by decide⟩
    · exact ⟨bothGroup, rfl, rfl, by decide⟩
    · exact ⟨bothGroup, rfl, rfl, rfl⟩
    · exact List.mem_cons_of_mem _ (List.mem_cons_of_mem _ List.mem_cons_self)
    · exact List.mem_cons_of_mem _ (List.mem_cons_of_mem _ List.mem_cons_self)
  have honce : machine.Along CountsOnce BookState.new bothCalls := by
    refine ⟨trivial, ?_, ?_, trivial, trivial, trivial, trivial⟩ <;>
    · intro g hg _ _
      cases hg
      decide
  have hk : (machine.exec BookState.new bothCalls).lastInstrSeq = 3 := by decide
  have h := synced_book_is_exact threeDeltas {bothGroup} bothGroup_ids bothCalls hsent honce (by decide)
  rw [hk] at h
  exact ⟨hk, h.2⟩

/-- The bid of the snapshot twice and its ask never: the message count is met. -/
def repeatedCalls : List Call :=
  [.snapshotBegin 7 13 2 2, .snapshotOrder 7 1 true 6200 5, .snapshotOrder 7 1 true 6200 5,
    .snapshotEnd 13 7]

/-- **A lost order and a repeated one install a truncated book.** -/
theorem synced_book_is_not_exact :
    (∀ c ∈ repeatedCalls, Sent threeDeltas {bothGroup} c) ∧
    (machine.exec BookState.new repeatedCalls).isSynced = true ∧
    (machine.exec BookState.new repeatedCalls).orders ≠
      threeDeltas.book (machine.exec BookState.new repeatedCalls).lastInstrSeq := by
  refine ⟨fun c hc => ?_, by decide, fun heq => ?_⟩
  · simp only [repeatedCalls, List.mem_cons, List.not_mem_nil, or_false] at hc
    rcases hc with rfl | rfl | rfl | rfl
    · exact ⟨bothGroup, rfl, rfl, rfl, by decide, rfl⟩
    · exact ⟨bothGroup, rfl, rfl, by decide⟩
    · exact ⟨bothGroup, rfl, rfl, by decide⟩
    · exact ⟨bothGroup, rfl, rfl, rfl⟩
  · have hask := congrArg (fun o : Orders => o.contains 2) heq
    revert hask
    decide

end EdgeConnect.Mbo
