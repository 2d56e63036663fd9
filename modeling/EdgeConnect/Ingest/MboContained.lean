import EdgeConnect.Ingest.MboRows
import EdgeConnect.Ingest.MbpContained

/-!
# The keys of the Market-by-Order maps (`revealed`, `synced_reported` and `reveal_rebaselined_ns` in
`src/ingest/processor.rs`)

Every sync report and every republish a processor remembers is of a book it holds, and every Source ID of an instrument
with a definition, as long as no message forces a key in or takes a definition away.

* `PerPublisher.Kept` — the reference data lists its publishers, and evicts one at a time; `ensure_cases`;
* `Kept` — the containments; `Held` — those of a datagram in progress; `Eases` — what takes no book and adds no key;
* `Frame.Admits`, `Input.Admitted` — what a message and a datagram meet; `onMessage_held`, `begin_held`, `emitPass_kept`;
* `keys_contained` — both processors over whole runs.
-/

set_option autoImplicit false

namespace EdgeConnect.Ingest.PerPublisher

/-! ## The publishers -/

/-- The publishers are listed oldest first, within their cap, and no eviction is pending. -/
structure Kept (s : PerPublisher) : Prop where
  order : Lists s.order s.states.keys
  cap : s.states.size ≤ MAX_PUBLISHERS
  settled : s.lastEvicted = none

theorem Kept.new : PerPublisher.new.Kept := ⟨.nil, Nat.zero_le _, rfl⟩

/-- Making room takes no publisher, or the oldest, which it marks. -/
theorem evictWhile_cases {s : PerPublisher} (h : s.Kept) :
    let x := evictWhile (fun m : FinMap IpAddr RefDataState × Option IpAddr => decide (m.1.size ≥ MAX_PUBLISHERS))
      (fun m old => (m.1.erase old, some old)) s.order (s.states, s.lastEvicted)
    (x = (s.order, s.states, none) ∧ s.states.size < MAX_PUBLISHERS) ∨
      ∃ old queue, s.order = old :: queue ∧ x = (queue, s.states.erase old, some old) := by
  intro x
  have hx : x = evictWhile _ _ s.order (s.states, s.lastEvicted) := rfl
  clear_value x
  rw [h.settled] at hx
  cases horder : s.order with
  | nil =>
    have hempty : s.states.size = 0 := by
      have hlength := h.order.length
      rw [horder] at hlength
      exact hlength.symm
    rw [horder] at hx
    refine .inl ⟨hx, ?_⟩
    rw [hempty]
    decide
  | cons old queue =>
    rw [horder] at hx
    unfold evictWhile at hx
    by_cases hfull : s.states.size ≥ MAX_PUBLISHERS
    · rw [if_pos (decide_eq_true hfull)] at hx
      refine .inr ⟨old, queue, rfl, hx.trans ?_⟩
      have hroom : ¬ (s.states.erase old).size ≥ MAX_PUBLISHERS := by
        have hmem : old ∈ s.states.keys := (h.order.mem old).mp (by rw [horder]; exact List.mem_cons_self)
        have hless : (s.states.erase old).size < s.states.size := Finset.card_erase_lt_of_mem hmem
        have hcap := h.cap
        omega
      cases queue with
      | nil => rfl
      | cons k ks =>
        unfold evictWhile
        rw [if_neg (by simpa using hroom)]
    · rw [if_neg (by simpa using hfull)] at hx
      exact .inl ⟨hx, not_le.mp hfull⟩

/-- What `ensure` leaves of the publishers: all of them, or all but the one it marks as evicted. -/
structure Ensured (s s' : PerPublisher) (publisher : IpAddr) : Prop where
  order : Lists s'.order s'.states.keys
  cap : s'.states.size ≤ MAX_PUBLISHERS
  known : s'.states.contains publisher = true
  same : ∀ p st, s'.lastEvicted ≠ some p → s.states.get p = some st → s'.states.get p = some st

theorem ensure_of_contains {s : PerPublisher} {publisher : IpAddr} (h : s.states.contains publisher = true) :
    s.ensure publisher = s := by
  unfold ensure
  rw [if_pos h]

theorem ensure_ensured {s : PerPublisher} (h : s.Kept) (publisher : IpAddr) :
    s.Ensured (s.ensure publisher) publisher := by
  by_cases hc : s.states.contains publisher = true
  · rw [ensure_of_contains hc]
    exact ⟨h.order, h.cap, hc, fun _ _ _ hst => hst⟩
  · have hout : publisher ∉ s.states.keys :=
      FinMap.notMem_keys_iff.mpr (FinMap.contains_eq_false.mp (Bool.eq_false_of_not_eq_true hc))
    unfold ensure
    rw [if_neg hc]
    have hcases := evictWhile_cases h
    simp only at hcases ⊢
    have hother : ∀ p st, s.states.get p = some st → p ≠ publisher := by
      rintro p st hst rfl
      exact hout (FinMap.mem_keys_iff.mpr ⟨st, hst⟩)
    rcases hcases with ⟨heq, hroom⟩ | ⟨old, queue, horder, heq⟩
    · rw [heq]
      refine ⟨?_, ?_, ?_, fun p st _ hst => ?_⟩
      · rw [FinMap.keys_insert]
        exact h.order.push hout
      · have hsize : (s.states.insert publisher .new).size ≤ s.states.size + 1 := by
          rw [FinMap.size_insert]
          split <;> omega
        exact hsize.trans hroom
      · exact FinMap.contains_eq_true.mpr ⟨_, FinMap.get_insert_self _ _ _⟩
      · rw [FinMap.get_insert_of_ne _ _ (hother p st hst)]
        exact hst
    · rw [heq]
      have hold : old ∈ s.states.keys := (h.order.mem old).mp (by rw [horder]; exact List.mem_cons_self)
      have hpop : Lists queue (s.states.keys.erase old) := Lists.pop (horder ▸ h.order)
      refine ⟨?_, ?_, ?_, fun p st hp hst => ?_⟩
      · rw [FinMap.keys_insert, FinMap.keys_erase]
        exact hpop.push fun hin => hout (Finset.mem_of_mem_erase hin)
      · have hless : (s.states.erase old).size < s.states.size := Finset.card_erase_lt_of_mem hold
        have hsize : ((s.states.erase old).insert publisher .new).size ≤ (s.states.erase old).size + 1 := by
          rw [FinMap.size_insert]
          split <;> omega
        exact (hsize.trans hless).trans h.cap
      · exact FinMap.contains_eq_true.mpr ⟨_, FinMap.get_insert_self _ _ _⟩
      · have hne : p ≠ old := fun heq => hp (by rw [heq])
        rw [FinMap.get_insert_of_ne _ _ (hother p st hst), FinMap.get_erase_of_ne _ hne]
        exact hst

theorem modify_ensured {s : PerPublisher} (h : s.Kept) (publisher : IpAddr) (f : RefDataState → RefDataState) :
    Lists (s.modify publisher f).order (s.modify publisher f).states.keys ∧
      (s.modify publisher f).states.size ≤ MAX_PUBLISHERS ∧
      (s.modify publisher f).states.contains publisher = true := by
  obtain ⟨horder, hcap, hknown, -⟩ := ensure_ensured h publisher
  unfold modify
  simp only
  have hkeys := FinMap.keys_insert_of_contains hknown (f (((s.ensure publisher).states.get publisher).getD .new))
  refine ⟨?_, ?_, ?_⟩
  · rw [hkeys]
    exact horder
  · unfold FinMap.size
    rw [hkeys]
    exact hcap
  · exact FinMap.contains_eq_true.mpr ⟨_, FinMap.get_insert_self _ _ _⟩

/-- A write of a known publisher's reference data evicts nobody. -/
theorem Kept.modify {s : PerPublisher} (h : s.Kept) {publisher : IpAddr} (hknown : s.states.contains publisher = true)
    (f : RefDataState → RefDataState) : (s.modify publisher f).Kept := by
  obtain ⟨horder, hcap, -⟩ := modify_ensured h publisher f
  refine ⟨horder, hcap, ?_⟩
  unfold PerPublisher.modify
  rw [ensure_of_contains hknown]
  exact h.settled

/-- What a publisher that is not evicted has defined stays defined, unless the write takes it away. -/
theorem modify_definition_isSome {s : PerPublisher} (h : s.Kept) {p q : IpAddr} {f : RefDataState → RefDataState}
    {i : Nat} (hq : (s.modify p f).lastEvicted ≠ some q)
    (hf : q = p → ∀ st, s.states.get p = some st → (st.definition i).isSome = true → ((f st).definition i).isSome = true)
    (hd : (s.definition q i).isSome = true) : ((s.modify p f).definition q i).isSome = true := by
  obtain ⟨-, -, -, hsame⟩ := ensure_ensured h p
  unfold definition at hd ⊢
  obtain ⟨d, hd⟩ := Option.isSome_iff_exists.mp hd
  obtain ⟨st, hst, hd⟩ := Option.bind_eq_some_iff.mp hd
  have hget := hsame q st hq hst
  unfold modify
  simp only
  by_cases hqp : q = p
  · subst hqp
    rw [FinMap.get_insert_self, hget]
    exact hf rfl st hst (Option.isSome_of_eq_some hd)
  · rw [FinMap.get_insert_of_ne _ _ hqp, hget]
    exact Option.isSome_of_eq_some hd

end EdgeConnect.Ingest.PerPublisher

namespace EdgeConnect.MboFeed

open Ingest
open Mbo (BookState DeltaOp)
open CodecMbo (Message)
open CodecCommon (DatagramHeader)

section Containments

variable {P S : Type} {rd : Render P S} {cx : Ctx} {touched : Finset Nat} {p p' : MboProcessor} {r : Run P S}
  {f : Frame P S}

/-! ## The containments -/

/-- Between two datagrams: the reports and the republishes are of books, and the Source IDs of defined instruments. -/
structure Kept (p : MboProcessor) : Prop where
  reported : p.syncedReported.keys ⊆ p.books.keys
  rebaselined : p.revealRebaselinedNs.keys ⊆ p.books.keys
  defined : ∀ k ∈ p.revealed.keys, (p.state.definition k.publisher k.instrumentId).isSome = true
  roster : p.state.Kept

/-- In a datagram: the publisher's reference data is there if it may be written, and what was touched has a book once
it has a Source ID. -/
structure Held (cx : Ctx) (touched : Finset Nat) (p : MboProcessor) : Prop extends Kept p where
  known : cx.role.handlesRefdata = true → p.state.states.contains cx.publisher = true
  touchedBooks : ∀ id ∈ touched, (⟨cx.publisher, id⟩ : OrderBookKey) ∈ p.revealed.keys → ⟨cx.publisher, id⟩ ∈ p.books.keys

/-- A change that takes no book and no reference data, and adds no other key. -/
structure Eases (p p' : MboProcessor) : Prop where
  books : p.books.keys ⊆ p'.books.keys
  reported : p'.syncedReported.keys ⊆ p.syncedReported.keys
  rebaselined : p'.revealRebaselinedNs.keys ⊆ p.revealRebaselinedNs.keys
  revealed : p'.revealed.keys ⊆ p.revealed.keys
  state : p'.state = p.state

theorem Eases.refl (p : MboProcessor) : Eases p p := ⟨subset_rfl, subset_rfl, subset_rfl, subset_rfl, rfl⟩

theorem Eases.trans {p'' : MboProcessor} (h : Eases p p') (h' : Eases p' p'') : Eases p p'' where
  books := h.books.trans h'.books
  reported := h'.reported.trans h.reported
  rebaselined := h'.rebaselined.trans h.rebaselined
  revealed := h'.revealed.trans h.revealed
  state := h'.state.trans h.state

theorem Kept.ease (hp : Kept p) (h : Eases p p') : Kept p' where
  reported := h.reported.trans (hp.reported.trans h.books)
  rebaselined := h.rebaselined.trans (hp.rebaselined.trans h.books)
  defined := fun k hk => h.state ▸ hp.defined k (h.revealed hk)
  roster := h.state ▸ hp.roster

theorem Held.ease (hp : Held cx touched p) (h : Eases p p') : Held cx touched p' where
  toKept := hp.toKept.ease h
  known := fun hrole => h.state ▸ hp.known hrole
  touchedBooks := fun id hid hk => h.books (hp.touchedBooks id hid (h.revealed hk))

/-- A report of a book that is held adds no other key. -/
theorem setSynced_keys (rd : Render P S) (cx : Ctx) (h : r.proc.syncedReported.keys ⊆ r.proc.books.keys)
    {key : OrderBookKey} (synced : Bool) (hkey : key ∈ r.proc.revealed.keys → key ∈ r.proc.books.keys) :
    (r.setSynced rd cx key synced).proc.syncedReported.keys ⊆ r.proc.books.keys := by
  unfold Run.setSynced
  split
  · exact h
  · split
    · exact h
    · rename_i market hmarket
      obtain ⟨sourceId, hrevealed, -⟩ := Option.map_eq_some_iff.mp hmarket
      show (r.proc.syncedReported.insert key synced).keys ⊆ r.proc.books.keys
      rw [FinMap.keys_insert]
      exact Finset.insert_subset (hkey (FinMap.mem_keys_iff.mpr ⟨sourceId, hrevealed⟩)) h

theorem Held.report (h : Held cx touched r.proc) {key : OrderBookKey} {synced : Bool}
    (hkey : key ∈ r.proc.revealed.keys → key ∈ r.proc.books.keys) :
    Held cx touched (r.setSynced rd cx key synced).proc := by
  have hkeys := setSynced_keys rd cx h.reported synced hkey
  rw [setSynced_proc]
  exact { h with reported := hkeys }

/-- A pass of unsynced reports of books that are held. -/
theorem unsync_keys (rd : Render P S) (cx : Ctx) : ∀ (ks : List OrderBookKey) (r : Run P S),
    r.proc.syncedReported.keys ⊆ r.proc.books.keys → (∀ k ∈ ks, k ∈ r.proc.books.keys) →
    (ks.foldl (fun r k => r.setSynced rd cx k false) r).proc.syncedReported.keys ⊆ r.proc.books.keys
  | [], _, h, _ => h
  | k :: ks, r, h, hks => by
    have hbooks : (r.setSynced rd cx k false).proc.books = r.proc.books := by
      rw [setSynced_proc]
    have hkeys := setSynced_keys rd cx h false fun _ => hks k List.mem_cons_self
    rw [← hbooks] at hkeys hks ⊢
    exact unsync_keys rd cx ks (r.setSynced rd cx k false) hkeys fun k' hk' => hks k' (List.mem_cons_of_mem _ hk')

/-- The oldest book goes with everything kept beside it. -/
theorem Held.evictBook (h : Held cx touched r.proc) (old : OrderBookKey) :
    Held cx touched (r.evictBook rd cx old).proc := by
  rw [evictBook_proc]
  have herase : ∀ {W : Type} {m : FinMap OrderBookKey W}, m.keys ⊆ r.proc.books.keys →
      (m.erase old).keys ⊆ (r.proc.books.erase old).keys := by
    intro W m hm
    rw [FinMap.keys_erase, FinMap.keys_erase]
    exact Finset.erase_subset_erase old hm
  refine ⟨⟨herase h.reported, herase h.rebaselined, fun k hk => ?_, h.roster⟩, h.known, fun id hid hk => ?_⟩
  · exact h.defined k (Finset.mem_of_mem_erase hk)
  · change _ ∈ (r.proc.revealed.erase old).keys at hk
    rw [FinMap.keys_erase, Finset.mem_erase] at hk
    show _ ∈ (r.proc.books.erase old).keys
    rw [FinMap.keys_erase, Finset.mem_erase]
    exact ⟨hk.1, h.touchedBooks id hid hk.2⟩

/-- An instrument with a definition gets a book; one without has no Source ID. -/
theorem bookFor_held (rd : Render P S) (h : Held cx touched r.proc) (id : Nat) :
    (r.proc.state.definition cx.publisher id = none ∧ r.bookFor rd cx id = (r, none)) ∨
      ∃ b r', (r.proc.state.definition cx.publisher id).isSome = true ∧ r.bookFor rd cx id = (r', some b) ∧
        Held cx touched r'.proc ∧ r'.proc.state = r.proc.state ∧ ⟨cx.publisher, id⟩ ∈ r'.proc.books.keys := by
  unfold Run.bookFor
  cases hd : r.proc.state.definition cx.publisher id with
  | none => exact .inl ⟨rfl, rfl⟩
  | some d =>
    simp only
    cases hb : r.proc.books.get ⟨cx.publisher, id⟩ with
    | some b => exact .inr ⟨b, r, rfl, rfl, h, rfl, FinMap.mem_keys_iff.mpr ⟨b, hb⟩⟩
    | none =>
      obtain ⟨hheld, hstate⟩ := evictWhile_rule (fun r : Run P S => decide (r.proc.books.size ≥ MAX_BOOKS))
        (Run.evictBook rd cx) (P := fun r' : Run P S => Held cx touched r'.proc ∧ r'.proc.state = r.proc.state)
        (fun r' old ⟨hheld, hstate⟩ => ⟨hheld.evictBook old, by rw [evictBook_proc]; exact hstate⟩)
        r.proc.booksOrder r ⟨h, rfl⟩
      generalize evictWhile _ (Run.evictBook rd cx) r.proc.booksOrder r = x at hheld hstate ⊢
      refine .inr ⟨.new, _, rfl, rfl, hheld.ease ⟨?_, subset_rfl, subset_rfl, subset_rfl, rfl⟩, hstate, ?_⟩
      · rw [FinMap.keys_insert]
        exact Finset.subset_insert _ _
      · rw [FinMap.keys_insert]
        exact Finset.mem_insert_self _ _

theorem putBook_eases (cx : Ctx) (r : Run P S) (id : Nat) (b : BookState) : Eases r.proc (r.putBook cx id b).proc := by
  refine ⟨?_, subset_rfl, subset_rfl, subset_rfl, rfl⟩
  show r.proc.books.keys ⊆ (r.proc.books.insert _ b).keys
  rw [FinMap.keys_insert]
  exact Finset.subset_insert _ _

/-- What is touched has a book, or no definition and so no Source ID. -/
theorem Held.touch (h : Held cx touched p) {id : Nat}
    (hid : ⟨cx.publisher, id⟩ ∈ p.books.keys ∨ p.state.definition cx.publisher id = none) :
    Held cx (insert id touched) p := by
  refine { h with touchedBooks := fun i hi hk => ?_ }
  rcases Finset.mem_insert.mp hi with rfl | hi
  · rcases hid with hid | hnone
    · exact hid
    · have hd := h.defined _ hk
      rw [hnone] at hd
      cases hd
  · exact h.touchedBooks i hi hk

/-! ## The messages -/

/-- A Source ID that is new is one of a defined instrument; `hbook` is needed of what the datagram touched. -/
theorem revealIfNeeded_held (rd : Render P S) (h : Held cx touched r.proc) (id sourceId : Nat)
    (hbook : id ∈ touched → (r.proc.state.definition cx.publisher id).isSome = true →
      r.proc.revealed.get ⟨cx.publisher, id⟩ ≠ some sourceId → (⟨cx.publisher, id⟩ : OrderBookKey) ∈ r.proc.books.keys) :
    Held cx touched (r.revealIfNeeded rd cx id sourceId).1.proc ∧
      (r.revealIfNeeded rd cx id sourceId).1.proc.books = r.proc.books ∧
      ((r.revealIfNeeded rd cx id sourceId).2 = true → (r.proc.state.definition cx.publisher id).isSome = true ∧
        r.proc.revealed.get ⟨cx.publisher, id⟩ ≠ some sourceId) := by
  unfold Run.revealIfNeeded
  simp only
  split
  · exact ⟨h, rfl, nofun⟩
  · rename_i hnew
    split
    · exact ⟨h, rfl, nofun⟩
    · rename_i d hd
      have hsome : (r.proc.state.definition cx.publisher id).isSome = true := Option.isSome_of_eq_some hd
      have hinsert : ∀ p : MboProcessor, Held cx touched p → p.state = r.proc.state → p.books = r.proc.books →
          Held cx touched { p with revealed := p.revealed.insert ⟨cx.publisher, id⟩ sourceId } := by
        intro p hp hstate hbooks
        refine { hp with defined := fun k hk => ?_, touchedBooks := fun i hi hk => ?_ }
        · change k ∈ (p.revealed.insert ⟨cx.publisher, id⟩ sourceId).keys at hk
          rw [FinMap.keys_insert] at hk
          rcases Finset.mem_insert.mp hk with rfl | hk
          · show (p.state.definition cx.publisher id).isSome = true
            rw [hstate]
            exact hsome
          · exact hp.defined k hk
        · change _ ∈ (p.revealed.insert ⟨cx.publisher, id⟩ sourceId).keys at hk
          rw [FinMap.keys_insert] at hk
          rcases Finset.mem_insert.mp hk with heq | hk
          · have hid : i = id := congrArg OrderBookKey.instrumentId heq
            show (⟨cx.publisher, i⟩ : OrderBookKey) ∈ p.books.keys
            rw [hid] at hi ⊢
            rw [hbooks]
            exact hbook hi hsome hnew
          · exact hp.touchedBooks i hi hk
      split
      · exact ⟨hinsert r.proc h rfl rfl, rfl, fun _ => ⟨hsome, hnew⟩⟩
      · exact ⟨hinsert _ (h.ease ⟨subset_rfl, subset_rfl, subset_rfl, subset_rfl, rfl⟩) rfl rfl, rfl,
          fun _ => ⟨hsome, hnew⟩⟩

theorem onReveal_held (h : Held cx f.touched f.proc) (id sourceId : Nat)
    (hbook : (f.proc.state.definition cx.publisher id).isSome = true →
      f.proc.revealed.get ⟨cx.publisher, id⟩ ≠ some sourceId → (⟨cx.publisher, id⟩ : OrderBookKey) ∈ f.proc.books.keys) :
    Held cx (f.onReveal rd cx id sourceId).touched (f.onReveal rd cx id sourceId).proc := by
  unfold Frame.onReveal
  obtain ⟨hheld, hbooks, hnew⟩ := revealIfNeeded_held rd (r := f.toRun) h id sourceId fun _ => hbook
  generalize f.toRun.revealIfNeeded rd cx id sourceId = x at hheld hbooks hnew ⊢
  obtain ⟨r, isNew⟩ := x
  simp only at hheld hbooks hnew ⊢
  cases isNew with
  | false => exact hheld
  | true =>
    have hkey : (⟨cx.publisher, id⟩ : OrderBookKey) ∈ r.proc.books.keys := by
      rw [hbooks]
      exact hbook (hnew rfl).1 (hnew rfl).2
    unfold Run.revealRebaselineDue
    simp only
    split
    · rename_i heq
      split at heq
      · cases heq
      · cases heq
        refine { hheld with rebaselined := ?_ }
        show (r.proc.revealRebaselinedNs.insert _ cx.monoNs).keys ⊆ r.proc.books.keys
        rw [FinMap.keys_insert]
        exact Finset.insert_subset hkey hheld.rebaselined
    · rename_i heq
      split at heq
      · cases heq
        exact hheld
      · cases heq

theorem applyDelta_held (rd : Render P S) (h : Held cx f.touched f.proc) (id : Nat) (op : DeltaOp) :
    Held cx (f.applyDelta rd cx id op).touched (f.applyDelta rd cx id op).proc ∧
      ((f.applyDelta rd cx id op).proc.state.definition cx.publisher id = none ∨
        (⟨cx.publisher, id⟩ : OrderBookKey) ∈ (f.applyDelta rd cx id op).proc.books.keys) := by
  unfold Frame.applyDelta
  simp only
  rcases bookFor_held rd (r := f.toRun) h id with ⟨hnone, heq⟩ | ⟨b, r, -, heq, hheld, -, hkey⟩
  · rw [heq]
    exact ⟨h.touch (.inr hnone), .inl hnone⟩
  · rw [heq]
    have hput := putBook_eases cx r id (b.onDeltaReporting op).1
    exact ⟨(hheld.ease hput).touch (.inl (hput.books hkey)), .inr (hput.books hkey)⟩

theorem onDelta_held (rd : Render P S) (h : Held cx f.touched f.proc) (id sourceId : Nat) (op : DeltaOp) :
    Held cx (f.onDelta rd cx id sourceId op).touched (f.onDelta rd cx id sourceId op).proc := by
  obtain ⟨hheld, hkey⟩ := applyDelta_held rd h id op
  refine onReveal_held hheld id sourceId fun hd _ => hkey.resolve_left fun hnone => ?_
  rw [hnone] at hd
  cases hd

/-- A print on the tape changes nothing that is kept. -/
theorem tape_held {g : Frame P S} (h : Held cx g.touched g.proc) (tape : Prop) [Decidable tape] (o : Out P S) :
    Held cx (if tape then { g with toRun := g.toRun.emit o } else g).touched
      (if tape then { g with toRun := g.toRun.emit o } else g).proc := by
  split <;> exact h

theorem onOrderExecute_held (h : Held cx f.touched f.proc) (sequence : Nat) (o : CodecMbo.OrderExecute) :
    Held cx (f.onOrderExecute rd cx sequence o).touched (f.onOrderExecute rd cx sequence o).proc := by
  unfold Frame.onOrderExecute
  have hdelta := onDelta_held rd h o.instrumentId o.sourceId
    ⟨o.perInstrumentSeq, sequence, o.ts, .execute o.orderId o.execQtyRaw (decide (o.execFlags &&& 0x01 ≠ 0))⟩
  simp only
  split
  · exact hdelta
  · exact tape_held hdelta _ _

/-- What a message meets where it is handled, if it is to force no key in and take no definition away.  A definition
that resolves and names a Source ID meets the book of its instrument if the datagram touched it before; so do a trade
that names a new Source ID and the reset of an instrument that has one; and a manifest that starts over meets no Source
ID of its publisher. -/
def Frame.Admits (cx : Ctx) (f : Frame P S) : Message → Prop
  | .manifestSummary m =>
    cx.role.handlesRefdata = true →
      (((f.proc.state.states.get cx.publisher).getD .new).valid = false ∨
        isLater m.manifestSeq ((f.proc.state.states.get cx.publisher).getD .new).latestSeq = true) →
      ∀ k ∈ f.proc.revealed.keys, k.publisher ≠ cx.publisher
  | .instrumentDefinition d =>
    cx.role.handlesRefdata = true → d.sourceId.isSome = true → d.instrumentId ∈ f.touched →
      ((f.proc.state.modify cx.publisher fun s => s.onInstrumentDefinition d).definition cx.publisher
        d.instrumentId).isSome = true →
      f.proc.books.contains ⟨cx.publisher, d.instrumentId⟩ = true
  | .trade t =>
    (f.proc.state.definition cx.publisher t.instrumentId).isSome = true →
      f.proc.revealed.get ⟨cx.publisher, t.instrumentId⟩ ≠ some t.sourceId →
      f.proc.books.contains ⟨cx.publisher, t.instrumentId⟩ = true
  | .instrumentReset r =>
    f.proc.revealed.contains ⟨cx.publisher, r.instrumentId⟩ = true →
      f.proc.books.contains ⟨cx.publisher, r.instrumentId⟩ = true
  | _ => True

theorem mem_keys_of_contains {V : Type} {m : FinMap OrderBookKey V} {k : OrderBookKey} (h : m.contains k = true) :
    k ∈ m.keys :=
  FinMap.mem_keys_iff.mpr (FinMap.contains_eq_true.mp h)

theorem contains_of_mem_keys {V : Type} {m : FinMap OrderBookKey V} {k : OrderBookKey} (h : k ∈ m.keys) :
    m.contains k = true :=
  FinMap.contains_eq_true.mpr (FinMap.mem_keys_iff.mp h)

theorem onTrade_held (h : Held cx f.touched f.proc) (t : Codec.Trade) (hadmits : f.Admits cx (.trade t)) :
    Held cx (f.onTrade rd cx t).touched (f.onTrade rd cx t).proc := by
  unfold Frame.onTrade
  split
  · exact h
  · exact tape_held (onReveal_held h t.instrumentId t.sourceId fun hd hne => mem_keys_of_contains (hadmits hd hne)) _ _

/-- A definition defines its instrument and takes no other definition away. -/
theorem define_held (h : Held cx touched r.proc) (d : InstrumentDefinition) (hrole : cx.role.handlesRefdata = true) :
    Held cx touched (r.define cx d).proc := by
  have hkept := h.roster.modify (h.known hrole) fun s => s.onInstrumentDefinition d
  refine { h with defined := fun k hk => ?_, roster := hkept, known := fun _ => ?_ }
  · show ((r.proc.state.modify cx.publisher fun s => s.onInstrumentDefinition d).definition k.publisher
      k.instrumentId).isSome = true
    refine PerPublisher.modify_definition_isSome h.roster (by rw [hkept.settled]; exact nofun) (fun _ st _ hst => ?_)
      (h.defined k hk)
    unfold RefDataState.onInstrumentDefinition
    split
    · unfold RefDataState.definition
      simp only
      rw [FinMap.get_insert]
      split
      · rfl
      · exact hst
    · exact hst
  · exact (PerPublisher.modify_ensured h.roster cx.publisher _).2.2

theorem onInstrumentDefinition_held (h : Held cx f.touched f.proc) (channel : Nat) (d : InstrumentDefinition)
    (hrole : cx.role.handlesRefdata = true) (hadmits : f.Admits cx (.instrumentDefinition d)) :
    Held cx (f.onInstrumentDefinition rd cx channel d).touched (f.onInstrumentDefinition rd cx channel d).proc := by
  unfold Frame.onInstrumentDefinition
  simp only
  have hproc : ((f.toRun.setChannel ⟨cx.publisher, d.instrumentId⟩ channel).reannounce rd cx ⟨cx.publisher, d.instrumentId⟩
      channel d).proc = (f.toRun.setChannel ⟨cx.publisher, d.instrumentId⟩ channel).proc := reannounce_proc rd cx _ _ _ _
  generalize (f.toRun.setChannel ⟨cx.publisher, d.instrumentId⟩ channel).reannounce rd cx ⟨cx.publisher, d.instrumentId⟩
    channel d = r at hproc ⊢
  have hr : Held cx f.touched r.proc := by
    rw [hproc]
    exact h.ease ⟨subset_rfl, subset_rfl, subset_rfl, subset_rfl, rfl⟩
  have hdefine := define_held hr d hrole
  cases hsource : d.sourceId with
  | none => exact hdefine
  | some sourceId =>
    refine (revealIfNeeded_held rd hdefine d.instrumentId sourceId fun hid hd _ => ?_).1
    have hstate : (r.define cx d).proc.state = f.proc.state.modify cx.publisher fun s => s.onInstrumentDefinition d := by
      show r.proc.state.modify cx.publisher _ = _
      rw [hproc]
      rfl
    rw [hstate] at hd
    have hbooks : (r.define cx d).proc.books = f.proc.books := by
      show r.proc.books = _
      rw [hproc]
      rfl
    rw [hbooks]
    exact mem_keys_of_contains (hadmits hrole (Option.isSome_of_eq_some hsource) hid hd)

theorem onManifest_held (h : Held cx f.touched f.proc) (m : Codec.ManifestSummary)
    (hrole : cx.role.handlesRefdata = true) (hadmits : f.Admits cx (.manifestSummary m)) :
    Held cx f.touched { f.proc with
      state := f.proc.state.modify cx.publisher fun s => s.onManifest true m.manifestSeq m.instrumentCount } := by
  have hkept := h.roster.modify (h.known hrole) fun s => s.onManifest true m.manifestSeq m.instrumentCount
  refine { h with defined := fun k hk => ?_, roster := hkept, known := fun _ => ?_ }
  · show ((f.proc.state.modify cx.publisher fun s => s.onManifest true m.manifestSeq m.instrumentCount).definition
      k.publisher k.instrumentId).isSome = true
    refine PerPublisher.modify_definition_isSome h.roster (by rw [hkept.settled]; exact nofun) (fun hpub st hst hd => ?_)
      (h.defined k hk)
    unfold RefDataState.onManifest
    rw [if_neg Bool.noConfusion]
    split
    · rename_i hlater
      refine absurd hpub (hadmits hrole ?_ k hk)
      rw [hst]
      exact hlater
    · exact hd
  · exact (PerPublisher.modify_ensured h.roster cx.publisher _).2.2

theorem keys_mapVals {V W : Type} (m : FinMap OrderBookKey V) (g : V → W) : (m.mapVals g).keys = m.keys := rfl

theorem keys_mapEntries {V W : Type} (m : FinMap OrderBookKey V) (g : OrderBookKey → V → W) :
    (m.mapEntries g).keys = m.keys := rfl

theorem Held.touchAll (h : Held cx touched p) {ids : Finset Nat}
    (hids : ∀ id ∈ ids, (⟨cx.publisher, id⟩ : OrderBookKey) ∈ p.books.keys) : Held cx (touched ∪ ids) p := by
  refine { h with touchedBooks := fun id hid hk => ?_ }
  rcases Finset.mem_union.mp hid with hid | hid
  · exact h.touchedBooks id hid hk
  · exact hids id hid

theorem onEndOfSession_held (h : Held cx f.touched f.proc) :
    Held cx (f.onEndOfSession rd cx).touched (f.onEndOfSession rd cx).proc := by
  unfold Frame.onEndOfSession
  simp only
  have hend : Held cx f.touched f.toRun.endBooks.proc := by
    refine h.ease ⟨?_, subset_rfl, subset_rfl, subset_rfl, rfl⟩
    show f.proc.books.keys ⊆ (f.proc.books.mapVals BookState.onEndOfSession).keys
    rw [keys_mapVals]
  generalize f.toRun.endBooks = r₁ at hend ⊢
  generalize hks : visit cx.order (r₁.proc.books.keys.filter fun k => k.publisher ≠ cx.publisher) = ks
  have hkeys := unsync_keys rd cx ks r₁ hend.reported fun k hk => by
    rw [← hks] at hk
    exact (Finset.mem_filter.mp (mem_visit.mp hk)).1
  have hpeers : Held cx f.touched (ks.foldl (fun r k => r.setSynced rd cx k false) r₁).proc := by
    rw [(unsync_foldl rd cx ks r₁).1]
    exact { hend with reported := hkeys }
  generalize ks.foldl (fun r k => r.setSynced rd cx k false) r₁ = r₂ at hpeers ⊢
  have hproc : ((r₂.resetAllKnownDepthFloors rd cx).resetAllKnownBookEvents rd cx).proc = r₂.proc := by
    rw [resetAllKnownBookEvents_proc, resetAllKnownDepthFloors_proc]
  generalize (r₂.resetAllKnownDepthFloors rd cx).resetAllKnownBookEvents rd cx = r₃ at hproc ⊢
  have htouch : Held cx (f.touched ∪ (r₂.proc.books.keys.filter fun k => k.publisher = cx.publisher).image
      OrderBookKey.instrumentId) r₂.proc := hpeers.touchAll fun id hid => by
    obtain ⟨k, hk, rfl⟩ := Finset.mem_image.mp hid
    obtain ⟨hk, hpub⟩ := Finset.mem_filter.mp hk
    rw [← hpub]
    exact hk
  rw [hproc]
  exact htouch.ease ⟨subset_rfl, subset_rfl, subset_rfl, subset_rfl, rfl⟩

theorem onInstrumentReset_held (h : Held cx f.touched f.proc) (id newAnchorSeq : Nat)
    (hadmits : f.proc.revealed.contains ⟨cx.publisher, id⟩ = true → f.proc.books.contains ⟨cx.publisher, id⟩ = true) :
    Held cx (f.onInstrumentReset rd cx id newAnchorSeq).touched (f.onInstrumentReset rd cx id newAnchorSeq).proc := by
  unfold Frame.onInstrumentReset
  simp only
  have hreport : Held cx f.touched (f.toRun.setSynced rd cx ⟨cx.publisher, id⟩ false).proc :=
    h.report fun hk => mem_keys_of_contains (hadmits (contains_of_mem_keys hk))
  generalize f.toRun.setSynced rd cx ⟨cx.publisher, id⟩ false = r₁ at hreport ⊢
  have htop : Eases r₁.proc (r₁.forgetTop ⟨cx.publisher, id⟩).proc := by
    refine ⟨subset_rfl, subset_rfl, ?_, subset_rfl, rfl⟩
    show (r₁.proc.revealRebaselinedNs.erase _).keys ⊆ r₁.proc.revealRebaselinedNs.keys
    rw [FinMap.keys_erase]
    exact Finset.erase_subset _ _
  generalize r₁.forgetTop ⟨cx.publisher, id⟩ = r₂ at htop ⊢
  generalize Run.marketKey rd cx r₂.proc ⟨cx.publisher, id⟩ = market
  generalize Run.wireVenue rd r₂.proc ⟨cx.publisher, id⟩ = source
  have hpath : (r₂.forgetSourcePath rd cx ⟨cx.publisher, id⟩).proc = r₂.proc := forgetSourcePath_proc
  generalize r₂.forgetSourcePath rd cx ⟨cx.publisher, id⟩ = r₃ at hpath ⊢
  have hunreveal : Eases r₃.proc (r₃.unreveal ⟨cx.publisher, id⟩).proc := by
    refine ⟨subset_rfl, subset_rfl, subset_rfl, ?_, rfl⟩
    show (r₃.proc.revealed.erase _).keys ⊆ r₃.proc.revealed.keys
    rw [FinMap.keys_erase]
    exact Finset.erase_subset _ _
  rw [hpath] at hunreveal
  generalize r₃.unreveal ⟨cx.publisher, id⟩ = r₄ at hunreveal ⊢
  generalize ((r₄.proc.emittedSymbol.get ⟨cx.publisher, id⟩).or
    ((r₄.proc.state.definition cx.publisher id).map InstrumentDefinition.symbol)) = symbol
  have hfloor : (r₄.resetDepthFloorOf rd cx symbol source).proc = r₄.proc := by
    unfold Run.resetDepthFloorOf
    split
    · rfl
    · exact resetAllKnownDepthFloors_proc
  have hevents : ((r₄.resetDepthFloorOf rd cx symbol source).resetBookEventsOf market).proc = r₄.proc := by
    rw [← hfloor]
    unfold Run.resetBookEventsOf
    split <;> rfl
  generalize (r₄.resetDepthFloorOf rd cx symbol source).resetBookEventsOf market = r₅ at hevents ⊢
  have hheld : Held cx f.touched r₅.proc := by
    rw [hevents]
    exact (hreport.ease htop).ease hunreveal
  split
  · exact hheld
  · exact hheld.ease (putBook_eases cx r₅ id _)

theorem onSnapshotBegin_held (h : Held cx f.touched f.proc) (s : CodecMbo.SnapshotBegin) :
    Held cx (f.onSnapshotBegin rd cx s).touched (f.onSnapshotBegin rd cx s).proc := by
  unfold Frame.onSnapshotBegin
  simp only
  rcases bookFor_held rd (r := f.toRun) h s.instrumentId with ⟨hnone, heq⟩ | ⟨b, r, -, heq, hheld, -, hkey⟩
  · rw [heq]
    exact h.touch (.inr hnone)
  · rw [heq]
    have hput := putBook_eases cx r s.instrumentId
      (b.onSnapshotBegin s.snapshotId s.anchorSeq s.totalOrders s.lastInstrumentSeq)
    exact (hheld.ease hput).touch (.inl (hput.books hkey))

theorem onSnapshotOrder_held (h : Held cx f.touched f.proc) (s : CodecMbo.SnapshotOrder) :
    Held cx (f.onSnapshotOrder cx s).touched (f.onSnapshotOrder cx s).proc := by
  refine h.ease ⟨?_, subset_rfl, subset_rfl, subset_rfl, rfl⟩
  show f.proc.books.keys ⊆ (f.proc.books.mapEntries _).keys
  rw [keys_mapEntries]

theorem onSnapshotEnd_held (h : Held cx f.touched f.proc) (s : CodecMbo.SnapshotEnd) :
    Held cx (f.onSnapshotEnd rd cx s).touched (f.onSnapshotEnd rd cx s).proc := by
  unfold Frame.onSnapshotEnd Frame.endGroup
  rcases bookFor_held rd (r := f.toRun) h s.instrumentId with ⟨hnone, heq⟩ | ⟨b, r, -, heq, hheld, -, hkey⟩
  · rw [heq]
    exact h.touch (.inr hnone)
  · rw [heq]
    have hput := putBook_eases cx r s.instrumentId (b.onSnapshotEnd s.anchorSeq s.snapshotId).1
    exact (hheld.ease hput).touch (.inl (hput.books hkey))

/-- **An admitted message keeps the containments.** -/
theorem onMessage_held (h : Held cx f.touched f.proc) (header : DatagramHeader) (m : Message)
    (hadmits : f.Admits cx m) :
    Held cx (f.onMessage rd cx header m).touched (f.onMessage rd cx header m).proc := by
  cases m with
  | manifestSummary m =>
    unfold Frame.onMessage
    simp only
    split
    · rename_i hrole
      exact onManifest_held h m hrole hadmits
    · exact h
  | instrumentDefinition d =>
    unfold Frame.onMessage
    simp only
    split
    · rename_i hrole
      exact onInstrumentDefinition_held h _ d hrole hadmits
    · exact h
  | endOfSession ts => exact onEndOfSession_held h
  | orderAdd o => exact onDelta_held rd h _ _ _
  | orderCancel o => exact onDelta_held rd h _ _ _
  | orderExecute o => exact onOrderExecute_held h _ o
  | trade t => exact onTrade_held h t hadmits
  | instrumentReset r => exact onInstrumentReset_held h _ _ hadmits
  | snapshotBegin s => exact onSnapshotBegin_held h s
  | snapshotOrder s => exact onSnapshotOrder_held h s
  | snapshotEnd s => exact onSnapshotEnd_held h s
  | batchBoundary _ _ | heartbeat | other _ => exact h

/-! ## The ends of a datagram -/

/-- The reference data of another era takes every definition of its publisher away; its header meets no Source ID. -/
def AdmitsHeader (cx : Ctx) (h : DatagramHeader) (p : MboProcessor) : Prop :=
  cx.role.handlesRefdata = true →
    (p.state.states.get cx.publisher).any (fun st => h.resetCount.toNat ≠ st.lastResetCount) = true →
    ∀ k ∈ p.revealed.keys, k.publisher ≠ cx.publisher

theorem filter_keys_subset {V W : Type} {m : FinMap OrderBookKey V} {n : FinMap OrderBookKey W} (h : m.keys ⊆ n.keys)
    (q : OrderBookKey → Bool) : (m.filter fun k _ => q k).keys ⊆ (n.filter fun k _ => q k).keys := by
  rw [FinMap.keys_filter_key, FinMap.keys_filter_key]
  exact Finset.filter_subset_filter _ h

/-- What is left when a publisher goes, with the definitions of the others. -/
theorem forgetPublisher_kept (rd : Render P S) (cx : Ctx) (r : Run P S) (publisher : IpAddr)
    (hreported : r.proc.syncedReported.keys ⊆ r.proc.books.keys)
    (hrebaselined : r.proc.revealRebaselinedNs.keys ⊆ r.proc.books.keys)
    (hdefined : ∀ k ∈ r.proc.revealed.keys, k.publisher ≠ publisher →
      (r.proc.state.definition k.publisher k.instrumentId).isSome = true) (hroster : r.proc.state.Kept) :
    Kept (r.forgetPublisher rd cx publisher).proc ∧ (r.forgetPublisher rd cx publisher).proc.state = r.proc.state := by
  unfold Run.forgetPublisher
  simp only
  generalize hks : visit cx.order (r.proc.syncedReported.keys.filter fun k =>
    k.publisher = publisher ∧ r.proc.syncedReported.get k = some true) = ks
  have hkeys := unsync_keys rd cx ks r hreported fun k hk => by
    rw [← hks] at hk
    exact hreported (Finset.mem_filter.mp (mem_visit.mp hk)).1
  have hproc := (unsync_foldl rd cx ks r).1
  generalize ks.foldl (fun r k => r.setSynced rd cx k false) r = r₁ at hkeys hproc ⊢
  have hbooks : r₁.proc.books = r.proc.books := by rw [hproc]
  have hrebaselined₁ : r₁.proc.revealRebaselinedNs = r.proc.revealRebaselinedNs := by rw [hproc]
  have hrevealed : r₁.proc.revealed = r.proc.revealed := by rw [hproc]
  have hstate : r₁.proc.state = r.proc.state := by rw [hproc]
  generalize visit cx.order ((r₁.purgeBooks publisher).proc.revealed.keys.filter fun k => k.publisher = publisher) = named
  have hpaths : ((named.foldl (Run.forgetSourcePath rd cx) (r₁.purgeBooks publisher)).purgeNames publisher).proc =
      ((r₁.purgeBooks publisher).purgeNames publisher).proc := by
    unfold Run.purgeNames
    rw [forgetSourcePath_foldl_proc]
  rw [hpaths]
  refine ⟨⟨?_, ?_, fun k hk => ?_, ?_⟩, hstate⟩
  · rw [← hbooks] at hkeys
    exact filter_keys_subset hkeys _
  · rw [← hbooks, ← hrebaselined₁] at hrebaselined
    exact filter_keys_subset hrebaselined _
  · change k ∈ (r₁.proc.revealed.filter fun k _ => !decide (k.publisher = publisher)).keys at hk
    rw [FinMap.keys_filter_key r₁.proc.revealed fun k => !decide (k.publisher = publisher), hrevealed] at hk
    obtain ⟨hk, hne⟩ := Finset.mem_filter.mp hk
    show (r₁.proc.state.definition k.publisher k.instrumentId).isSome = true
    rw [hstate]
    exact hdefined k hk (by simpa using hne)
  · show r₁.proc.state.Kept
    rw [hstate]
    exact hroster

/-- **A header that is admitted keeps the containments.** -/
theorem begin_held (h : Kept p) (header : DatagramHeader) (hadmits : AdmitsHeader cx header p) :
    Held cx (begin rd cx header p).touched (begin rd cx header p).proc := by
  unfold begin
  simp only
  split
  · rename_i hrole
    obtain ⟨horder, hcap, hknown⟩ :=
      PerPublisher.modify_ensured h.roster cx.publisher fun s => s.onDatagram header.resetCount.toNat
    have hdefined : ∀ k ∈ p.revealed.keys, (p.state.modify cx.publisher fun s =>
        s.onDatagram header.resetCount.toNat).lastEvicted ≠ some k.publisher →
        ((p.state.modify cx.publisher fun s => s.onDatagram header.resetCount.toNat).definition k.publisher
          k.instrumentId).isSome = true := fun k hk hevicted =>
      PerPublisher.modify_definition_isSome h.roster hevicted (fun hpub st hst hd => by
        unfold RefDataState.onDatagram
        split
        · rename_i hera
          refine absurd hpub (hadmits hrole ?_ k hk)
          rw [hst]
          simpa using hera
        · exact hd) (h.defined k hk)
    generalize (p.state.modify cx.publisher fun s => s.onDatagram header.resetCount.toNat) = state at *
    split
    · rename_i hnone
      refine ⟨⟨h.reported, h.rebaselined, fun k hk => hdefined k hk (by rw [hnone]; exact nofun), horder, hcap, rfl⟩,
        fun _ => hknown, nofun⟩
    · rename_i evicted hevicted
      obtain ⟨hkept, hstate⟩ := forgetPublisher_kept rd cx
        ⟨{ p with state := { state with lastEvicted := none } }, []⟩ evicted h.reported h.rebaselined
        (fun k hk hne => hdefined k hk (by
          rw [hevicted]
          exact fun heq => hne (Option.some.inj heq).symm)) ⟨horder, hcap, rfl⟩
      refine ⟨hkept, fun _ => ?_, nofun⟩
      show (Run.proc _).state.states.contains cx.publisher = true
      rw [hstate]
      exact hknown
  · rename_i hrole
    exact ⟨h, fun hr => absurd hr hrole, nofun⟩

theorem emitDepth_eases (rd : Render P S) (cx : Ctx) (r : Run P S) (id : Nat) : Eases r.proc (r.emitDepth rd cx id).proc := by
  unfold Run.emitDepth
  simp only
  split
  · split
    · split
      · exact .refl _
      · exact ⟨subset_rfl, subset_rfl, subset_rfl, subset_rfl, rfl⟩
    · exact .refl _
  · exact .refl _

theorem emitOne_eases (r : Run P S) (id : Nat) : Eases r.proc (f.emitOne rd cx r id).proc := by
  unfold Frame.emitOne
  refine (emitDepth_eases rd cx r id).trans ?_
  unfold Run.emitBook
  simp only
  split
  · split
    · split <;> exact .refl _
    · exact .refl _
  · exact .refl _

/-- **The end of a datagram keeps the containments.** -/
theorem emitPass_kept (h : Held cx f.touched f.proc) : Kept (f.emitPass rd cx).proc := by
  unfold Frame.emitPass
  simp only
  have hreports : ∀ (ids : List Nat) (r : Run P S), (∀ id ∈ ids, id ∈ f.touched) → Held cx f.touched r.proc →
      Held cx f.touched (ids.foldl (fun r id => r.reportSynced rd cx id) r).proc := by
    intro ids
    induction ids with
    | nil => exact fun _ _ hr => hr
    | cons id ids ih =>
      exact fun r hids hr => ih _ (fun i hi => hids i (List.mem_cons_of_mem _ hi))
        (hr.report (hr.touchedBooks id (hids id List.mem_cons_self)))
  have hpass : ∀ (ids : List Nat) (r : Run P S), Kept r.proc → Kept (ids.foldl (f.emitOne rd cx) r).proc := by
    intro ids
    induction ids with
    | nil => exact fun _ hr => hr
    | cons id ids ih => exact fun r hr => ih _ (hr.ease (emitOne_eases r id))
  exact hpass _ _ (hreports _ f.toRun (fun id hid => (Finset.mem_sort _).mp hid) h).toKept

/-! ## Every run -/

/-- Every message is admitted where it is handled. -/
def Frame.AdmitsAll (rd : Render P S) (cx : Ctx) (h : DatagramHeader) : Frame P S → List Message → Prop
  | _, [] => True
  | f, m :: ms => f.Admits cx m ∧ AdmitsAll rd cx h (f.onMessage rd cx h m) ms

/-- The header of a datagram is admitted, and its messages are from the state that it leaves. -/
def Input.Admitted (rd : Render P S) (p : MboProcessor) (i : Input) : Prop :=
  AdmitsHeader i.cx i.datagram.header p ∧
    (begin rd i.cx i.datagram.header p).AdmitsAll rd i.cx i.datagram.header i.datagram.messages

theorem messages_held (header : DatagramHeader) : ∀ (ms : List Message) (f : Frame P S), Held cx f.touched f.proc →
    f.AdmitsAll rd cx header ms → Held cx (ms.foldl (Frame.onMessage rd cx header) f).touched
      (ms.foldl (Frame.onMessage rd cx header) f).proc
  | [], _, h, _ => h
  | m :: ms, _, h, hadmits => messages_held header ms _ (onMessage_held h header m hadmits.1) hadmits.2

theorem kept_run (is : List Input) (h : (processor rd).Along (Input.Admitted rd) .new is) : Kept (after rd is) := by
  refine Machine.along_rule (m := processor rd) (P := Kept) (fun p i hi hp => ?_) is .new h
    ⟨subset_rfl, subset_rfl, nofun, .new⟩
  exact emitPass_kept (messages_held i.datagram.header i.datagram.messages _
    (begin_held hp i.datagram.header hi.1) hi.2)

/-- The reports and the republishes are of books, and a publisher has no more Source IDs than definitions. -/
structure Contained (p : MboProcessor) : Prop where
  reported : p.syncedReported.keys ⊆ p.books.keys
  rebaselined : p.revealRebaselinedNs.keys ⊆ p.books.keys
  revealedCap : ∀ publisher, (p.revealed.keys.filter fun k => k.publisher = publisher).card ≤
    (p.state.states.get publisher).elim 0 fun st => st.defs.size

/-- The instruments of a publisher that have a Source ID are among those it has defined. -/
theorem Kept.contained (h : Kept p) : Contained p where
  reported := h.reported
  rebaselined := h.rebaselined
  revealedCap publisher := by
    have hdefined : ∀ k ∈ p.revealed.keys.filter fun k => k.publisher = publisher, ∃ st,
        p.state.states.get publisher = some st ∧ k.instrumentId ∈ st.defs.keys := by
      intro k hk
      obtain ⟨hmem, rfl⟩ := Finset.mem_filter.mp hk
      obtain ⟨d, hd⟩ := Option.isSome_iff_exists.mp (h.defined k hmem)
      obtain ⟨st, hst, hd⟩ := Option.bind_eq_some_iff.mp hd
      exact ⟨st, hst, FinMap.mem_keys_iff.mpr ⟨d, hd⟩⟩
    cases hst : p.state.states.get publisher with
    | none =>
      refine (Finset.card_eq_zero.mpr (Finset.eq_empty_of_forall_notMem fun k hk => ?_)).le
      obtain ⟨st, hget, -⟩ := hdefined k hk
      rw [hst] at hget
      cases hget
    | some st =>
      refine Finset.card_le_card_of_injOn OrderBookKey.instrumentId (fun k hk => ?_) fun k hk k' hk' heq => ?_
      · obtain ⟨st', hget, hmem⟩ := hdefined k hk
        rw [hst] at hget
        cases hget
        exact hmem
      · have hpub := (Finset.mem_filter.mp hk).2
        have hpub' := (Finset.mem_filter.mp hk').2
        cases k
        cases k'
        exact OrderBookKey.mk.injEq .. ▸ ⟨hpub.trans hpub'.symm, heq⟩

end Containments

/-- **The keys are contained.**  In a run whose messages force no key in and take no definition away, the Source IDs of
a Market-by-Price processor are those of books and its routes are within their cap, and the reports and republishes of a
Market-by-Order processor are of books, with no more Source IDs of a publisher than definitions. -/
theorem keys_contained {P S : Type} (rd : Render P S) :
    (∀ is : List (Mbp.Input P S), (Mbp.processor rd).Along (Mbp.Input.Admitted rd) .new is →
      Mbp.Contained (Mbp.after rd is)) ∧
    ∀ is : List Input, (processor rd).Along (Input.Admitted rd) .new is → Contained (after rd is) :=
  ⟨Mbp.contained_run, fun is h => (kept_run is h).contained⟩

def addOrder : Message := .orderAdd ⟨7, 5, SIDE_BID, 0, 1, 70, 0, 10, 1⟩

/-- A definition and a delta, then a definition that names the Source ID, and a group. -/
def knownLevels : List (Mbp.Input Unit Unit) :=
  [levelInput 0 1 [.manifestSummary true 1 1, .instrumentDefinition ⟨7, none, "S", 0, 0, 1, 1⟩,
      .levelUpdate ⟨7, 5, Mbp.SIDE_BID, 0, 1, 10, 1, 0, none, 0⟩],
    levelInput 0 2 [.instrumentDefinition ⟨7, some 6, "S", 0, 0, 1, 1⟩, .snapshotBegin ⟨7, 0, 1, 5, 0, 0⟩]]

/-- An order of a defined instrument, a trade under another Source ID and a reset. -/
def knownOrders : List Input :=
  [laneInput 0 1 (twoDefinitions ++ [addOrder]),
    laneInput 0 2 [.trade ⟨7, 6, 0, 0, 0, 10, 1, 0, 0⟩, .instrumentReset ⟨7, 0, 0, 0⟩]]

theorem keys_contained_known :
    Mbp.Contained (Mbp.after plainRender knownLevels) ∧ Contained (after plainRender knownOrders) := by
  refine ⟨(keys_contained plainRender).1 knownLevels ?_, (keys_contained plainRender).2 knownOrders ?_⟩
  · refine ⟨⟨trivial, nofun, trivial, trivial⟩, ⟨fun _ _ _ => ?_, fun _ _ => .inr (.inl ?_), trivial⟩, trivial⟩
    · decide +kernel
    · decide +kernel
  · have hempty : ∀ k ∈ (∅ : Finset OrderBookKey), k.publisher ≠ 1 := nofun
    refine ⟨⟨fun _ _ => hempty, fun _ _ => hempty, nofun, nofun, trivial, trivial⟩,
      ⟨fun _ hera => absurd hera ?_, fun _ _ => ?_, fun _ => ?_, trivial⟩, trivial⟩
    · decide +kernel
    · decide +kernel
    · decide +kernel

/-- A definition that names its Source ID, before any delta; and the manifest of another era, after an order. -/
theorem keys_contained_forced :
    ¬ Mbp.Contained (Mbp.after plainRender [levelInput 0 1
      [.manifestSummary true 1 1, .instrumentDefinition ⟨7, some 1, "S", 0, 0, 1, 1⟩]]) ∧
    ¬ Contained (after plainRender [laneInput 0 1 (twoDefinitions ++ [addOrder]),
      laneInput 0 2 [.manifestSummary ⟨0, true, 2, 2, 0⟩]]) := by
  refine ⟨fun h => ?_, fun h => ?_⟩
  · exact absurd h.revealed (by decide +kernel)
  · exact absurd (h.revealedCap 1) (by decide +kernel)

end EdgeConnect.MboFeed
