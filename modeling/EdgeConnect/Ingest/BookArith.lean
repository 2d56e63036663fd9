import EdgeConnect.Ingest.BookLevels

/-!
# The machine arithmetic of the order-level book

The book adds quantities to its price levels with `+=` on `u64`, takes a fill off an order with `-=`, and compares a
sequence with `last_instr_seq + 1` on `u32` (`src/ingest/book.rs`).

* `stepArith` — the operations that one call evaluates;
* `Wire` — what the wire bounds: quantities below `2 ^ 64`, sequences below `2 ^ 32`;
* `HasRoom` — every order that one call adds fits into what its price level has left;
* `arithmetic_fits_iff` — the operations of a run all fit exactly when every call has room.
-/

set_option autoImplicit false

namespace EdgeConnect.Mbo

/-! ## The operations -/

/-- One machine operation. -/
inductive Arith where
  /-- `*levels.entry(price).or_insert(0) += qty` -/
  | addQty (total qty : Nat)
  /-- `o.qty_raw -= filled` -/
  | subQty (qty filled : Nat)
  /-- `last_instr_seq + 1` -/
  | nextSeq (seq : Nat)
  deriving DecidableEq, Repr

def Arith.Fits : Arith → Prop
  | .addQty total qty => total + qty < 2 ^ 64
  | .subQty qty filled => filled ≤ qty
  | .nextSeq seq => seq + 1 < 2 ^ 32

/-- The total of a price level, `0` where there is none. -/
def totalAt (levels : Levels) (price : Int) : Nat := (levels.get price).getD 0

namespace BookState

def applyArith (b : BookState) : DeltaKind → List Arith
  | .add orderId isBid priceRaw qtyRaw =>
    if orderId ∈ b.removed then []
    else if b.orders.size ≥ MAX_ORDERS_PER_BOOK ∧ b.orders.contains orderId = false then []
    else [.addQty (totalAt (b.levels isBid) priceRaw) qtyRaw]
  | .cancel _ => []
  | .execute orderId execQtyRaw _ =>
    match b.orders.get orderId with
    | none => []
    | some o => [.subQty o.qtyRaw (min execQtyRaw o.qtyRaw)]

def applyOrRecoverArith (b : BookState) (op : DeltaOp) : List Arith :=
  if op.seq ≤ b.lastInstrSeq then []
  else .nextSeq b.lastInstrSeq :: if op.seq ≠ b.lastInstrSeq + 1 then [] else (b.advance op).applyArith op.kind

def replayArith (b : BookState) : List DeltaOp → List Arith
  | [] => []
  | op :: ops =>
    b.applyOrRecoverArith op ++
      if (b.applyOrRecover op).1.state = .recovering then [] else replayArith (b.applyOrRecover op).1 ops

end BookState

open BookState

/-- The operations that a call evaluates. -/
def stepArith (b : BookState) : Call → List Arith
  | .delta op => if b.state = .synced then b.applyOrRecoverArith op else []
  | .snapshotOrder snapshotId _ isBid priceRaw qtyRaw =>
    match b.building with
    | none => []
    | some g =>
      if g.snapshotId = snapshotId ∧ g.orders.size < MAX_ORDERS_PER_BOOK then
        [.addQty (totalAt (if isBid then g.bids else g.asks) priceRaw) qtyRaw]
      else []
  | .snapshotEnd anchorSeq snapshotId =>
    match b.building with
    | none => []
    | some g =>
      if g.snapshotId ≠ snapshotId ∨ g.anchorSeq ≠ anchorSeq ∨ g.receivedOrders ≠ g.totalOrders then []
      else (b.install g).replayArith (b.replayable g.anchorSeq)
  | _ => []

/-! ## Room for an order -/

/-- An order that an `Add` brings to rest fits into what its level has left. -/
def DeltaHasRoom (b : BookState) : DeltaKind → Prop
  | .add orderId isBid priceRaw qtyRaw => orderId ∉ b.removed →
      ¬ (b.orders.size ≥ MAX_ORDERS_PER_BOOK ∧ b.orders.contains orderId = false) →
      qtyRaw ≤ 2 ^ 64 - 1 - totalAt (b.levels isBid) priceRaw
  | _ => True

/-- So does each that a replay brings to rest. -/
def ReplayHasRoom (b : BookState) : List DeltaOp → Prop
  | [] => True
  | op :: ops => (op.seq = b.lastInstrSeq + 1 → DeltaHasRoom b op.kind) ∧
      ((b.applyOrRecover op).1.state = .synced → ReplayHasRoom (b.applyOrRecover op).1 ops)

/-- Every order that a call adds fits into what its price level has left. -/
def HasRoom (b : BookState) : Call → Prop
  | .delta op => b.state = .synced → op.seq = b.lastInstrSeq + 1 → DeltaHasRoom b op.kind
  | .snapshotOrder snapshotId _ isBid priceRaw qtyRaw => ∀ g, b.building = some g → g.snapshotId = snapshotId →
      g.orders.size < MAX_ORDERS_PER_BOOK → qtyRaw ≤ 2 ^ 64 - 1 - totalAt (if isBid then g.bids else g.asks) priceRaw
  | .snapshotEnd anchorSeq snapshotId => ∀ g, b.building = some g → g.snapshotId = snapshotId → g.anchorSeq = anchorSeq →
      g.receivedOrders = g.totalOrders → ReplayHasRoom (b.install g) (b.replayable g.anchorSeq)
  | _ => True

/-- A delta as the wire carries it. -/
def DeltaOp.Wire (op : DeltaOp) : Prop := op.seq < 2 ^ 32

/-- A call as the wire carries it. -/
def Call.Wire : Call → Prop
  | .delta op => op.Wire
  | _ => True

/-! ## One call -/

variable {b : BookState}

/-- Every level total is a machine word. -/
def Words (levels : Levels) : Prop := ∀ price, totalAt levels price < 2 ^ 64

theorem Words.empty : Words ∅ := fun _ => Nat.two_pow_pos 64

theorem Words.add {levels : Levels} (h : Words levels) (price : Int) (qty : Nat) : Words (levelAdd levels price qty) := by
  intro p
  unfold totalAt levelAdd
  rw [FinMap.get_insert]
  split
  · exact Nat.mod_lt _ (Nat.two_pow_pos 64)
  · exact h p

theorem Words.remove {levels : Levels} (h : Words levels) (price : Int) (qty : Nat) :
    Words (levelRemove levels price qty) := by
  intro p
  unfold levelRemove
  cases hget : levels.get price with
  | none => exact h p
  | some total =>
    have htotal : total < 2 ^ 64 := by
      have := h price
      unfold totalAt at this
      rwa [hget] at this
    simp only
    unfold totalAt
    split
    · rw [FinMap.get_erase]
      split
      · exact Nat.two_pow_pos 64
      · exact h p
    · rw [FinMap.get_insert]
      split
      · exact Nat.lt_of_le_of_lt (Nat.sub_le _ _) htotal
      · exact h p

/-- A sum is a machine word exactly when the order fits into what the level has left. -/
theorem addQty_fits_iff {total qty : Nat} (h : total < 2 ^ 64) :
    (Arith.addQty total qty).Fits ↔ qty ≤ 2 ^ 64 - 1 - total := by
  show total + qty < 2 ^ 64 ↔ _
  omega

/-- The books' totals are machine words, and what they buffer came off the wire. -/
structure Sized (b : BookState) : Prop where
  words : ∀ isBid, Words (b.levels isBid)
  building : ∀ g, b.building = some g → Words g.bids ∧ Words g.asks
  pending : ∀ op ∈ b.pending, op.Wire

theorem Sized.new : Sized .new := ⟨fun isBid => by cases isBid <;> exact Words.empty, nofun, nofun⟩

theorem words_setLevels {side : Bool} {l : Levels} (h : ∀ s, Words (b.levels s)) (hl : Words l) (s : Bool) :
    Words ((b.setLevels side l).levels s) := by
  rw [levels_setLevels]
  by_cases hs : s = side
  · rw [hs, Function.update_self]
    exact hl
  · rw [Function.update_of_ne hs]
    exact h s

theorem Sized.apply (h : Sized b) (kind : DeltaKind) : Sized (b.apply kind).1 := by
  have hframe := b.apply_frame kind
  refine ⟨fun s => ?_, hframe.building ▸ h.building, hframe.pending ▸ h.pending⟩
  cases kind with
  | add orderId isBid price qty =>
    unfold BookState.apply
    simp only
    split
    · exact h.words s
    · split
      · cases s <;> exact Words.empty
      · exact words_setLevels (b := { b with orders := b.orders.insert orderId ⟨isBid, price, qty⟩ }) h.words
          ((h.words isBid).add price qty) s
  | cancel orderId =>
    unfold BookState.apply
    simp only
    split
    · exact h.words s
    · rename_i o _
      rw [noteRemoved_levels]
      exact words_setLevels (b := { b with orders := b.orders.erase orderId }) h.words
        ((h.words o.isBid).remove o.priceRaw o.qtyRaw) s
  | execute orderId qty full =>
    unfold BookState.apply
    simp only
    split
    · exact h.words s
    · rename_i o _
      split
      · rw [noteRemoved_levels]
        exact words_setLevels (b := { b with orders := b.orders.erase orderId }) h.words
          ((h.words o.isBid).remove o.priceRaw (min qty o.qtyRaw)) s
      · exact words_setLevels (b := { b with orders := b.orders.insert orderId _ }) h.words
          ((h.words o.isBid).remove o.priceRaw (min qty o.qtyRaw)) s

theorem Sized.applyOrRecover (h : Sized b) {op : DeltaOp} (hop : op.Wire) : Sized (b.applyOrRecover op).1 := by
  rcases b.applyOrRecover_cases op with ⟨-, heq⟩ | ⟨-, heq⟩ | ⟨-, heq⟩ <;> rw [heq]
  · exact h
  · exact ⟨h.words, h.building, fun x hx => by rw [List.mem_singleton.mp hx]; exact hop⟩
  · exact Sized.apply (b := b.advance op) ⟨h.words, h.building, h.pending⟩ op.kind

theorem Sized.replay : ∀ (ops : List DeltaOp) {b : BookState}, Sized b → (∀ op ∈ ops, op.Wire) → Sized (b.replay ops)
  | [], _, h, _ => h
  | op :: ops, b, h, hops => by
    have hstep := h.applyOrRecover (hops op List.mem_cons_self)
    unfold BookState.replay
    split
    · exact hstep
    · exact Sized.replay ops hstep fun x hx => hops x (List.mem_cons_of_mem _ hx)

theorem Sized.install (h : Sized b) {g : Building} (hg : b.building = some g) : Sized (b.install g) :=
  ⟨fun s => by cases s; exacts [(h.building g hg).2, (h.building g hg).1], nofun, nofun⟩

theorem Sized.step (h : Sized b) {c : Call} (hc : c.Wire) : Sized (machine.step b c).1 := by
  cases c with
  | delta op =>
    show Sized (b.onDeltaReporting op).1
    unfold onDeltaReporting
    split
    · split
      · refine ⟨h.words, h.building, fun x hx => ?_⟩
        rcases List.mem_append.mp hx with hx | hx
        · exact h.pending x hx
        · rw [List.mem_singleton.mp hx]
          exact hc
      · exact h
    · exact h.applyOrRecover hc
  | snapshotBegin id anchor total last =>
    show Sized (b.onSnapshotBegin id anchor total last)
    unfold onSnapshotBegin
    split
    · exact ⟨h.words, nofun, h.pending⟩
    · split
      · exact ⟨h.words, nofun, h.pending⟩
      · refine ⟨h.words, fun g hg => ?_, h.pending⟩
        cases hg
        exact ⟨Words.empty, Words.empty⟩
  | snapshotOrder id order isBid price qty =>
    show Sized (b.onSnapshotOrder id order isBid price qty)
    unfold onSnapshotOrder
    cases hb : b.building with
    | none => exact h
    | some g =>
      simp only
      split
      · refine ⟨h.words, fun g' hg' => ?_, h.pending⟩
        cases hg'
        obtain ⟨hbids, hasks⟩ := h.building g hb
        cases isBid
        · exact ⟨hbids, hasks.add price qty⟩
        · exact ⟨hbids.add price qty, hasks⟩
      · exact h
  | snapshotEnd anchor id =>
    show Sized (b.onSnapshotEnd anchor id).1
    rcases b.onSnapshotEnd_cases anchor id with ⟨-, heq⟩ | ⟨g, -, heq⟩ | ⟨g, hg, -, heq⟩ <;> rw [heq]
    · exact h
    · exact ⟨h.words, nofun, h.pending⟩
    · exact (h.install hg).replay _ fun op hop => h.pending op (b.mem_replayable hop)
  | instrumentReset s =>
    refine ⟨fun side => by cases side <;> exact Words.empty, nofun, fun op hop => ?_⟩
    exact h.pending op (List.mem_filter.mp hop).1
  | endOfSession => exact ⟨fun side => by cases side <;> exact Words.empty, nofun, nofun⟩

/-! ## What fits -/

/-- What one delta evaluates fits exactly when the order it adds does. -/
theorem applyArith_fits_iff (h : Sized b) (kind : DeltaKind) :
    (∀ a ∈ b.applyArith kind, a.Fits) ↔ DeltaHasRoom b kind := by
  cases kind with
  | add orderId isBid price qty =>
    unfold applyArith DeltaHasRoom
    simp only
    split
    · rename_i hin
      exact ⟨fun _ hfree => absurd hin hfree, nofun⟩
    · rename_i hfree
      split
      · rename_i hfull
        exact ⟨fun _ _ hroom => absurd hfull hroom, nofun⟩
      · rename_i hroom
        rw [List.forall_mem_singleton, addQty_fits_iff (h.words isBid price)]
        exact ⟨fun hqty _ _ => hqty, fun hqty => hqty hfree hroom⟩
  | cancel orderId => exact ⟨fun _ => trivial, nofun⟩
  | execute orderId qty full =>
    refine ⟨fun _ => trivial, fun _ a ha => ?_⟩
    unfold applyArith at ha
    simp only at ha
    split at ha
    · cases ha
    · cases List.mem_singleton.mp ha
      -- a fill takes at most what the order has
      exact Nat.min_le_right _ _

/-- A sequence past the last one leaves room for the increment, so only the order added matters. -/
theorem applyOrRecoverArith_fits_iff (h : Sized b) {op : DeltaOp} (hop : op.Wire) :
    (∀ a ∈ b.applyOrRecoverArith op, a.Fits) ↔ (op.seq = b.lastInstrSeq + 1 → DeltaHasRoom b op.kind) := by
  unfold applyOrRecoverArith
  split
  · rename_i hold
    exact ⟨fun _ hseq => by omega, nofun⟩
  · rename_i hnew
    have hnext : (Arith.nextSeq b.lastInstrSeq).Fits := Nat.lt_of_le_of_lt (Nat.lt_of_not_le hnew) hop
    have hsized : Sized (b.advance op) := ⟨h.words, h.building, h.pending⟩
    rw [List.forall_mem_cons]
    split
    · rename_i hgap
      exact ⟨fun _ hseq => absurd hseq hgap, fun _ => ⟨hnext, nofun⟩⟩
    · rename_i hseq
      rw [applyArith_fits_iff hsized op.kind]
      have hsame : DeltaHasRoom (b.advance op) op.kind ↔ DeltaHasRoom b op.kind := by
        cases op.kind <;> rfl
      rw [hsame]
      exact ⟨fun hroom _ => hroom.2, fun hroom => ⟨hnext, hroom (not_not.mp hseq)⟩⟩

theorem replayArith_fits_iff : ∀ (ops : List DeltaOp) {b : BookState}, Sized b → (∀ op ∈ ops, op.Wire) →
    ((∀ a ∈ b.replayArith ops, a.Fits) ↔ ReplayHasRoom b ops)
  | [], _, _, _ => ⟨fun _ => trivial, nofun⟩
  | op :: ops, b, h, hops => by
    have hop := hops op List.mem_cons_self
    have hstep := h.applyOrRecover hop
    unfold replayArith ReplayHasRoom
    rw [List.forall_mem_append, applyOrRecoverArith_fits_iff h hop]
    refine and_congr_right fun _ => ?_
    split
    · rename_i hrec
      rw [hrec]
      exact ⟨fun _ => nofun, fun _ => nofun⟩
    · rename_i hsync
      rw [replayArith_fits_iff ops hstep fun x hx => hops x (List.mem_cons_of_mem _ hx)]
      have hsynced : (b.applyOrRecover op).1.state = .synced := by
        cases hstate : (b.applyOrRecover op).1.state with
        | synced => rfl
        | recovering => exact absurd hstate hsync
      exact ⟨fun hroom _ => hroom, fun hroom => hroom hsynced⟩

/-- **One call.** -/
theorem stepArith_fits_iff (h : Sized b) {c : Call} (hc : c.Wire) : (∀ a ∈ stepArith b c, a.Fits) ↔ HasRoom b c := by
  cases c with
  | delta op =>
    unfold stepArith HasRoom
    simp only
    split
    · rename_i hsynced
      rw [applyOrRecoverArith_fits_iff h hc]
      exact ⟨fun hroom _ => hroom, fun hroom => hroom hsynced⟩
    · rename_i hrec
      exact ⟨fun _ hsynced => absurd hsynced hrec, nofun⟩
  | snapshotOrder id order isBid price qty =>
    unfold stepArith HasRoom
    cases hb : b.building with
    | none => exact ⟨nofun, nofun⟩
    | some g =>
      have hwords : totalAt (if isBid then g.bids else g.asks) price < 2 ^ 64 := by
        obtain ⟨hbids, hasks⟩ := h.building g hb
        cases isBid
        · exact hasks price
        · exact hbids price
      simp only
      split
      · rename_i hok
        rw [List.forall_mem_singleton, addQty_fits_iff hwords]
        refine ⟨fun hqty g' hg' _ _ => ?_, fun hqty => hqty g rfl hok.1 hok.2⟩
        cases hg'
        exact hqty
      · rename_i hno
        refine ⟨fun _ g' hg' hid hsize => ?_, nofun⟩
        cases hg'
        exact absurd ⟨hid, hsize⟩ hno
  | snapshotEnd anchor id =>
    unfold stepArith HasRoom
    cases hb : b.building with
    | none => exact ⟨nofun, nofun⟩
    | some g =>
      simp only
      split
      · rename_i hbad
        refine ⟨fun _ g' hg' hid hanchor hcount => ?_, nofun⟩
        cases hg'
        rcases hbad with hne | hne | hne
        · exact absurd hid hne
        · exact absurd hanchor hne
        · exact absurd hcount hne
      · rename_i hok
        push Not at hok
        rw [replayArith_fits_iff _ (h.install hb) fun op hop => h.pending op (b.mem_replayable hop)]
        refine ⟨fun hroom g' hg' _ _ _ => ?_, fun hroom => hroom g rfl hok.1 hok.2.1 hok.2.2⟩
        cases hg'
        exact hroom
  | snapshotBegin id anchor total last => exact ⟨fun _ => trivial, nofun⟩
  | instrumentReset s => exact ⟨fun _ => trivial, nofun⟩
  | endOfSession => exact ⟨fun _ => trivial, nofun⟩

/-! ## Runs -/

/-- No operation of a run overflows. -/
def ArithmeticFits (calls : List Call) : Prop :=
  ∀ u c v, calls = u ++ c :: v → ∀ a ∈ stepArith (machine.exec .new u) c, a.Fits

theorem sized_run (calls : List Call) (hcalls : ∀ c ∈ calls, c.Wire) : Sized (machine.exec .new calls) := by
  have hwire : machine.Along (fun _ c => c.Wire) .new calls := Machine.along_of_forall calls _ hcalls
  have hstep : ∀ b c, Call.Wire c → Sized b → Sized (machine.step b c).1 := fun _ _ hc h => h.step hc
  exact Machine.along_rule hstep calls _ hwire .new

/-- **The arithmetic of a run fits exactly when every call has room** for the orders it adds. -/
theorem arithmetic_fits_iff (calls : List Call) (hcalls : ∀ c ∈ calls, c.Wire) :
    ArithmeticFits calls ↔ machine.Along HasRoom .new calls := by
  unfold ArithmeticFits
  induction calls using List.reverseRecOn with
  | nil => exact ⟨fun _ => trivial, fun _ u c v h => by cases u <;> cases h⟩
  | append_singleton calls c ih =>
    have hprefix : ∀ d ∈ calls, d.Wire := fun d hd => hcalls d (List.mem_append_left _ hd)
    have hlast := stepArith_fits_iff (sized_run calls hprefix) (hcalls c (by simp))
    rw [Machine.along_append]
    show _ ↔ _ ∧ HasRoom (machine.exec .new calls) c ∧ True
    rw [and_true, ← ih hprefix, ← hlast]
    constructor
    · intro h
      refine ⟨fun u d v heq => h u d (v ++ [c]) (by rw [heq]; simp), h calls c [] rfl⟩
    · rintro ⟨hbefore, hat⟩ u d v heq
      rcases List.eq_nil_or_concat v with rfl | ⟨v, x, rfl⟩
      · obtain ⟨rfl, hd⟩ := List.append_inj' heq rfl
        cases hd
        exact hat
      · rw [List.concat_eq_append, ← List.cons_append, ← List.append_assoc] at heq
        exact hbefore u d v (List.append_inj' heq rfl).1

/-- Two orders of a snapshot at one price, one of them as large as the wire allows. -/
def crowdedLevel : List Call :=
  [.snapshotBegin 1 5 2 0, .snapshotOrder 1 7 true 100 (2 ^ 64 - 1), .snapshotOrder 1 8 true 100 1]

/-- **Two orders at one price overflow its total.** -/
theorem crowded_level_overflows :
    ¬ ∀ calls : List Call, (∀ c ∈ calls, c.Wire) → ArithmeticFits calls := by
  intro h
  have hfits := h crowdedLevel (by simp [crowdedLevel, Call.Wire]) (crowdedLevel.take 2) (.snapshotOrder 1 8 true 100 1) [] rfl
    (.addQty (2 ^ 64 - 1) 1) (by decide +kernel)
  exact absurd hfits (by show ¬ 2 ^ 64 - 1 + 1 < 2 ^ 64; decide)

/-- A snapshot of two orders at one price, and one more order there. -/
theorem arithmetic_fits_iff_roomy : ArithmeticFits [.snapshotBegin 1 5 2 0, .snapshotOrder 1 7 true 100 4,
    .snapshotOrder 1 8 true 100 (2 ^ 64 - 6), .snapshotEnd 5 1, .delta ⟨1, 6, 0, .add 9 true 100 1⟩] := by
  refine (arithmetic_fits_iff _ (by simp [Call.Wire, DeltaOp.Wire])).mpr ⟨trivial, ?_, ?_, ?_, ?_, trivial⟩
  · intro g hg _ _
    cases hg
    decide +kernel
  · intro g hg _ _
    cases hg
    decide +kernel
  · intro g hg _ _ _
    cases hg
    trivial
  · intro _ _ _ _
    decide +kernel

end EdgeConnect.Mbo
