import EdgeConnect.Model.Rebaseline

/-!
# Resuming from a re-baseline

A consumer that is handed a market's whole book and then, again, the batches that built it ends up with
the same book: every change is absolute.

* `Absorbing` — what a list of changes does to one entry of a book: it overwrites it or it filters it;
* `foldChanges_idempotent` — folding the same changes twice is folding them once;
* `EventBook.Tracks` — an accumulated book has a consumer's open event, and its book once it is complete;
* `EventBook.feedFree` — a consumer that is fed without the order cap;
* `EventBook.Resumes` — a consumer that resumed at the book `base` against the book `e` whose batches it
  is fed again; `resumes_feedAll` — once `e` is `base` again, so is the consumer.
-/

set_option autoImplicit false

namespace EdgeConnect

/-! ## Changes are absolute -/

/-- A function on one entry that overwrites it or filters it. -/
def Absorbing {V : Type*} (f : Option V → Option V) : Prop :=
  (∃ v, ∀ x, f x = v) ∨ ∃ p : V → Bool, ∀ x, f x = x.filter p

namespace Absorbing

variable {V : Type*} {f g : Option V → Option V}

theorem id : Absorbing (fun x : Option V => x) := Or.inr ⟨fun _ => true, fun x => by cases x <;> rfl⟩

theorem const (v : Option V) : Absorbing fun _ => v := Or.inl ⟨v, fun _ => rfl⟩

theorem filter (p : V → Bool) : Absorbing fun x : Option V => x.filter p := Or.inr ⟨p, fun _ => rfl⟩

theorem comp (hg : Absorbing g) (hf : Absorbing f) : Absorbing fun x => g (f x) := by
  rcases hg with ⟨v, hg⟩ | ⟨p, hg⟩
  · exact Or.inl ⟨v, fun x => hg (f x)⟩
  · rcases hf with ⟨v, hf⟩ | ⟨q, hf⟩
    · exact Or.inl ⟨v.filter p, fun x => (hg (f x)).trans (by rw [hf])⟩
    · exact Or.inr ⟨fun v => q v && p v, fun x => (hg (f x)).trans (by rw [hf, Option.filter_filter])⟩

/-- **Overwriting or filtering twice is doing it once.** -/
theorem idempotent (h : Absorbing f) (x : Option V) : f (f x) = f x := by
  rcases h with ⟨v, hf⟩ | ⟨p, hf⟩
  · rw [hf (f x), hf x]
  · rw [hf (f x), hf x, Option.filter_filter]
    simp

end Absorbing

namespace Resting

/-- One change acts on each order alone. -/
theorem applyChange_order_absorbing (c : BookChange) (id : Nat) :
    ∃ f, Absorbing f ∧ ∀ r : Resting, (r.applyChange c).orders.get id = f (r.orders.get id) := by
  have hclear : ∃ f, Absorbing f ∧ ∀ r : Resting, (r.clearSide c.side).orders.get id = f (r.orders.get id) := by
    cases c.side with
    | bid => exact ⟨_, .filter fun o : RestingOrder => !o.isBid, fun r => rfl⟩
    | ask => exact ⟨_, .filter fun o : RestingOrder => o.isBid, fun r => rfl⟩
    | both =>
      exact ⟨_, (Absorbing.filter fun o : RestingOrder => o.isBid).comp
        (.filter fun o : RestingOrder => !o.isBid), fun r => rfl⟩
  have hset : ∀ (v : Option RestingOrder) (os : Resting → FinMap Nat RestingOrder),
      (∀ r x, (os r).get x = if x = c.orderId then v else r.orders.get x) →
      ∃ f, Absorbing f ∧ ∀ r : Resting, (os r).get id = f (r.orders.get id) := by
    intro v os hos
    by_cases hid : id = c.orderId
    · exact ⟨_, .const v, fun r => by rw [hos, if_pos hid]⟩
    · exact ⟨_, .id, fun r => by rw [hos, if_neg hid]⟩
  by_cases hid : c.orderId ≠ 0
  · cases ha : c.action with
    | clear =>
      simp only [applyChange_clear ha]
      exact hclear
    | delete =>
      simp only [applyChange, if_pos hid, ha]
      exact hset none _ fun r x => FinMap.get_erase _ _ _
    | update =>
      simp only [applyChange, if_pos hid, ha]
      by_cases hz : c.size.eq F64.zero = true
      · simp only [hz, if_true]
        exact hset none _ fun r x => FinMap.get_erase _ _ _
      · simp only [hz, Bool.false_eq_true, if_false]
        exact hset _ _ fun r x => FinMap.get_insert _ _ _ _
  · cases ha : c.action with
    | clear =>
      simp only [applyChange_clear ha]
      exact hclear
    | delete => cases hs : c.side <;> simp only [applyChange, if_neg hid, ha, hs] <;> exact ⟨_, .id, fun r => rfl⟩
    | update => cases hs : c.side <;> simp only [applyChange, if_neg hid, ha, hs] <;> exact ⟨_, .id, fun r => rfl⟩

/-- One change acts on each level alone. -/
theorem applyChange_level_absorbing (c : BookChange) (bid : Bool) (key : Int) :
    ∃ f, Absorbing f ∧ ∀ r : Resting, ((r.applyChange c).levels bid).get key = f ((r.levels bid).get key) := by
  have hclear : ∃ f, Absorbing f ∧
      ∀ r : Resting, ((r.clearSide c.side).levels bid).get key = f ((r.levels bid).get key) := by
    by_cases hs : c.side = (if bid then .ask else .bid)
    · exact ⟨_, .id, fun r => by rw [levels_clearSide, if_pos hs]⟩
    · exact ⟨_, .const none, fun r => by rw [levels_clearSide, if_neg hs]; rfl⟩
  have hset : ∀ (v : Option (F64 × F64)) (m : FinMap Int (F64 × F64) → FinMap Int (F64 × F64)),
      (∀ l x, (m l).get x = if x = fixedKey c.price then v else l.get x) →
      ∃ f, Absorbing f ∧ ∀ l : FinMap Int (F64 × F64), (m l).get key = f (l.get key) := by
    intro v m hm
    by_cases hk : key = fixedKey c.price
    · exact ⟨_, .const v, fun l => by rw [hm, if_pos hk]⟩
    · exact ⟨_, .id, fun l => by rw [hm, if_neg hk]⟩
  have herase := hset none (·.erase (fixedKey c.price)) fun l x => FinMap.get_erase _ _ _
  have hinsert := hset (some (c.price, c.size)) (·.insert (fixedKey c.price) (c.price, c.size))
    fun l x => FinMap.get_insert _ _ _ _
  -- a change of one side leaves the other alone
  have hside : ∀ side : Bool, (∃ f, Absorbing f ∧ ∀ l : FinMap Int (F64 × F64), (if side = bid then
      l.erase (fixedKey c.price) else l).get key = f (l.get key)) ∧
      ∃ f, Absorbing f ∧ ∀ l : FinMap Int (F64 × F64), (if side = bid then
        l.insert (fixedKey c.price) (c.price, c.size) else l).get key = f (l.get key) := by
    intro side
    by_cases hs : side = bid
    · simp only [if_pos hs]
      exact ⟨herase, hinsert⟩
    · simp only [if_neg hs]
      exact ⟨⟨_, .id, fun l => rfl⟩, _, .id, fun l => rfl⟩
  by_cases ho : c.orderId ≠ 0
  · cases ha : c.action with
    | clear =>
      simp only [applyChange_clear ha]
      exact hclear
    | delete =>
      simp only [applyChange, if_pos ho, ha]
      exact ⟨_, .id, fun r => by cases bid <;> rfl⟩
    | update =>
      simp only [applyChange, if_pos ho, ha]
      refine ⟨_, .id, fun r => ?_⟩
      split <;> cases bid <;> rfl
  · cases ha : c.action with
    | clear =>
      simp only [applyChange_clear ha]
      exact hclear
    | delete =>
      cases hs : c.side with
      | both =>
        simp only [applyChange, if_neg ho, ha, hs]
        exact ⟨_, .id, fun r => rfl⟩
      | bid =>
        simp only [applyChange, if_neg ho, ha, hs]
        obtain ⟨f, hf, h⟩ := (hside true).1
        exact ⟨f, hf, fun r => by rw [← h (r.levels bid)]; cases bid <;> rfl⟩
      | ask =>
        simp only [applyChange, if_neg ho, ha, hs]
        obtain ⟨f, hf, h⟩ := (hside false).1
        exact ⟨f, hf, fun r => by rw [← h (r.levels bid)]; cases bid <;> rfl⟩
    | update =>
      cases hs : c.side with
      | both =>
        simp only [applyChange, if_neg ho, ha, hs]
        exact ⟨_, .id, fun r => rfl⟩
      | bid =>
        simp only [applyChange, if_neg ho, ha, hs]
        obtain ⟨f, hf, h⟩ := (hside true).2
        exact ⟨f, hf, fun r => by rw [← h (r.levels bid)]; cases bid <;> rfl⟩
      | ask =>
        simp only [applyChange, if_neg ho, ha, hs]
        obtain ⟨f, hf, h⟩ := (hside false).2
        exact ⟨f, hf, fun r => by rw [← h (r.levels bid)]; cases bid <;> rfl⟩

theorem foldChanges_order_absorbing (id : Nat) : ∀ cs : List BookChange,
    ∃ f, Absorbing f ∧ ∀ r : Resting, (r.foldChanges cs).orders.get id = f (r.orders.get id)
  | [] => ⟨_, .id, fun _ => rfl⟩
  | c :: cs => by
    obtain ⟨f, hf, hc⟩ := applyChange_order_absorbing c id
    obtain ⟨g, hg, hcs⟩ := foldChanges_order_absorbing id cs
    exact ⟨_, hg.comp hf, fun r => (hcs (r.applyChange c)).trans (by rw [hc])⟩

theorem foldChanges_level_absorbing (bid : Bool) (key : Int) : ∀ cs : List BookChange,
    ∃ f, Absorbing f ∧ ∀ r : Resting, ((r.foldChanges cs).levels bid).get key = f ((r.levels bid).get key)
  | [] => ⟨_, .id, fun _ => rfl⟩
  | c :: cs => by
    obtain ⟨f, hf, hc⟩ := applyChange_level_absorbing c bid key
    obtain ⟨g, hg, hcs⟩ := foldChanges_level_absorbing bid key cs
    exact ⟨_, hg.comp hf, fun r => (hcs (r.applyChange c)).trans (by rw [hc])⟩

/-- **Folding the same changes twice is folding them once.** -/
theorem foldChanges_idempotent (r : Resting) (cs : List BookChange) :
    (r.foldChanges cs).foldChanges cs = r.foldChanges cs := by
  have horders : ∀ id, ((r.foldChanges cs).foldChanges cs).orders.get id = (r.foldChanges cs).orders.get id := by
    intro id
    obtain ⟨f, hf, h⟩ := foldChanges_order_absorbing id cs
    rw [h (r.foldChanges cs), h r, hf.idempotent]
  have hlevels : ∀ bid, ((r.foldChanges cs).foldChanges cs).levels bid = (r.foldChanges cs).levels bid := by
    intro bid
    ext1 key
    obtain ⟨f, hf, h⟩ := foldChanges_level_absorbing bid key cs
    rw [h (r.foldChanges cs), h r, hf.idempotent]
  refine eq_of_agree ⟨hlevels true, fun id o _ => ?_⟩ ⟨hlevels false, fun id o _ => ?_⟩
  · rw [horders id]
  · rw [horders id]

end Resting

/-! ## Books that track a consumer -/

namespace EventBook

/-- The accumulated book `r` of what a consumer's book `c` was fed. -/
structure Tracks (c r : EventBook) : Prop where
  pending : r.pending = c.pending
  rests : r.complete = true → r.rests = c.rests

variable {c r : EventBook}

/-- **Both fed the same batch, the book still tracks the consumer.** -/
theorem Tracks.feed (h : Tracks c r) (changes : List BookChange) (last : Bool) :
    Tracks (c.feed changes last) (r.feed changes last) := by
  obtain ⟨rests, pending, complete⟩ := r
  obtain rfl : pending = c.pending := h.pending
  unfold EventBook.feed
  simp only
  cases last with
  | true =>
    refine ⟨rfl, fun hc => ?_⟩
    simp only [if_true, Bool.and_eq_true, Bool.or_eq_true, decide_eq_true_eq] at hc ⊢
    obtain ⟨hc | hclear, -⟩ := hc
    · obtain rfl : rests = c.rests := h.rests hc
      rfl
    · rw [Resting.foldChanges_eq_of_clears hclear]
  | false =>
    simp only [Bool.false_eq_true, if_false]
    split
    · exact ⟨rfl, nofun⟩
    · exact ⟨rfl, h.rests⟩

/-- A consumer with no open event is tracked by a book about to be accumulated. -/
theorem Tracks.new (hc : c.pending = []) (symbol : String) : Tracks c (BookAccumulator.new symbol).core :=
  ⟨hc.symm, nofun⟩

/-- A consumer's book after a list of messages. -/
def feedAll (c : EventBook) (msgs : List NormalizedBook) : EventBook :=
  msgs.foldl (fun c msg => c.feed msg.changes msg.last) c

theorem feedAll_append (c : EventBook) (msgs msgs' : List NormalizedBook) :
    c.feedAll (msgs ++ msgs') = (c.feedAll msgs).feedAll msgs' := List.foldl_append

theorem core_applyAll : ∀ (msgs : List NormalizedBook) (a : BookAccumulator),
    (msgs.foldl BookAccumulator.apply a).core = a.core.feedAll msgs
  | [], _ => rfl
  | msg :: msgs, a => by
    rw [List.foldl_cons, core_applyAll msgs, BookAccumulator.core_apply]
    rfl

end EventBook

/-! ## A consumer that is fed again -/

namespace EventBook

/-- Feed one batch to a consumer that does not bound its orders. -/
def feedFree (e : EventBook) (changes : List BookChange) (last : Bool) : EventBook :=
  let pending := e.pending ++ changes.filter BookChange.isFinite
  let r := e.rests.foldChanges pending
  if last then ⟨r, [], e.complete || clearedSides pending = (true, true)⟩
  else if pending.length > MAX_PENDING_CHANGES then ⟨e.rests, [], false⟩
  else ⟨e.rests, pending, e.complete⟩

/-- A consumer's book after a list of messages, its orders unbounded. -/
def feedAllFree (c : EventBook) (msgs : List NormalizedBook) : EventBook :=
  msgs.foldl (fun c msg => c.feedFree msg.changes msg.last) c

theorem feedAllFree_append (c : EventBook) (msgs msgs' : List NormalizedBook) :
    c.feedAllFree (msgs ++ msgs') = (c.feedAllFree msgs).feedAllFree msgs' := List.foldl_append

/-- A batch that closes an event with no more orders than the cap. -/
def Fits (e : EventBook) (changes : List BookChange) (last : Bool) : Prop :=
  last = true → (e.rests.foldChanges (e.pending ++ changes.filter BookChange.isFinite)).orders.size ≤
    MAX_ACCUMULATED_ORDERS

/-- Below the cap a consumer is fed as if there were none. -/
theorem feed_eq_feedFree {e : EventBook} {changes : List BookChange} {last : Bool}
    (h : e.Fits changes last) : e.feed changes last = e.feedFree changes last := by
  unfold feed feedFree
  cases last with
  | false => rfl
  | true =>
    have hle := h rfl
    simp only [if_true]
    rw [bound_eq hle, decide_eq_true hle, Bool.and_true]

/-- An accumulated book goes on tracking a consumer that does not bound its orders. -/
theorem Tracks.feedFree {c r : EventBook} (h : Tracks c r) (changes : List BookChange) (last : Bool) :
    Tracks (c.feedFree changes last) (r.feed changes last) := by
  obtain ⟨rests, pending, complete⟩ := r
  obtain rfl : pending = c.pending := h.pending
  unfold EventBook.feed EventBook.feedFree
  simp only
  cases last with
  | true =>
    refine ⟨rfl, fun hc => ?_⟩
    simp only [if_true, Bool.and_eq_true, Bool.or_eq_true, decide_eq_true_eq] at hc ⊢
    obtain ⟨hc, hle⟩ := hc
    rw [bound_eq hle]
    rcases hc with hc | hclear
    · obtain rfl : rests = c.rests := h.rests hc
      rfl
    · exact Resting.foldChanges_eq_of_clears hclear
  | false =>
    simp only [Bool.false_eq_true, if_false]
    split
    · exact ⟨rfl, nofun⟩
    · exact ⟨rfl, h.rests⟩

/-- A consumer `u` that resumed at the book `base`, against the book `e` whose batches it is fed again.
Until the first event closes its open event is the end of `e`'s, unless `e` abandoned one it did not; from
then on the two events are the same, and what it folded since, `e` folded last. -/
inductive Resumes (base : Resting) (u e : EventBook) : Prop
  | behind (cs : List BookChange) (hp : e.pending = cs ++ u.pending) (hu : u.rests = base)
  | ahead (cs : List BookChange) (hp : u.pending = cs ++ e.pending) (hu : u.rests = base)
      (he : e.complete = false)
  | level (hp : u.pending = e.pending) (h : e.complete = true → u.rests = e.rests ∨
      ∃ (r : Resting) (cs : List BookChange), u.rests = base.foldChanges cs ∧ e.rests = r.foldChanges cs)

variable {base : Resting} {u e : EventBook}

theorem Resumes.more (h : Resumes base u e) (changes : List BookChange) :
    Resumes base (u.feedFree changes false) (e.feed changes false) := by
  unfold EventBook.feed EventBook.feedFree
  simp only [Bool.false_eq_true, if_false]
  generalize changes.filter BookChange.isFinite = added
  cases h with
  | behind cs hp hu =>
    rw [hp]
    by_cases he : (cs ++ u.pending ++ added).length > MAX_PENDING_CHANGES
    · rw [if_pos he]
      by_cases hl : (u.pending ++ added).length > MAX_PENDING_CHANGES
      · rw [if_pos hl]
        exact .behind [] rfl hu
      · rw [if_neg hl]
        exact .ahead (u.pending ++ added) (List.append_nil _).symm hu rfl
    · have hl : ¬ (u.pending ++ added).length > MAX_PENDING_CHANGES := by
        simp only [List.length_append] at he ⊢
        omega
      rw [if_neg he, if_neg hl]
      exact .behind cs (List.append_assoc _ _ _) hu
  | ahead cs hp hu hinc =>
    rw [hp]
    by_cases hl : (cs ++ e.pending ++ added).length > MAX_PENDING_CHANGES
    · rw [if_pos hl]
      by_cases he : (e.pending ++ added).length > MAX_PENDING_CHANGES
      · rw [if_pos he]
        exact .behind [] rfl hu
      · rw [if_neg he]
        exact .behind (e.pending ++ added) (List.append_nil _).symm hu
    · have he : ¬ (e.pending ++ added).length > MAX_PENDING_CHANGES := by
        simp only [List.length_append] at hl ⊢
        omega
      rw [if_neg he, if_neg hl]
      exact .ahead cs (List.append_assoc _ _ _) hu hinc
  | level hp h =>
    rw [hp]
    split
    · exact .level rfl nofun
    · exact .level rfl h

theorem Resumes.close (h : Resumes base u e) (changes : List BookChange) :
    Resumes base (u.feedFree changes true) (e.feed changes true) := by
  unfold EventBook.feed EventBook.feedFree
  simp only [if_true]
  generalize changes.filter BookChange.isFinite = added
  refine .level rfl fun hc => ?_
  simp only [Bool.and_eq_true, Bool.or_eq_true, decide_eq_true_eq] at hc ⊢
  obtain ⟨hc, hle⟩ := hc
  rw [bound_eq hle]
  cases h with
  | behind cs hp hu =>
    refine Or.inr ⟨e.rests.foldChanges cs, u.pending ++ added, by rw [hu], ?_⟩
    rw [hp, List.append_assoc, Resting.foldChanges_append]
  | ahead cs hp hu hinc =>
    have hclear : clearedSides (e.pending ++ added) = (true, true) := by
      rcases hc with hc | hc
      · rw [hinc] at hc
        cases hc
      · exact hc
    left
    rw [hp, List.append_assoc, Resting.foldChanges_append]
    exact Resting.foldChanges_eq_of_clears hclear
  | level hp h =>
    rw [hp]
    rcases hc with hc | hclear
    · rcases h hc with hsame | ⟨r, cs, hu, he⟩
      · exact Or.inl (by rw [hsame])
      · refine Or.inr ⟨r, cs ++ (e.pending ++ added), ?_, ?_⟩
        · rw [hu, ← Resting.foldChanges_append]
        · rw [he, ← Resting.foldChanges_append]
    · exact Or.inl (Resting.foldChanges_eq_of_clears hclear)

theorem Resumes.feedAll : ∀ (msgs : List NormalizedBook) {u e : EventBook}, Resumes base u e →
    Resumes base (u.feedAllFree msgs) (e.feedAll msgs)
  | [], _, _, h => h
  | msg :: msgs, u, e, h => by
    have hstep : Resumes base (u.feedFree msg.changes msg.last) (e.feed msg.changes msg.last) := by
      cases msg.last with
      | true => exact h.close msg.changes
      | false => exact h.more msg.changes
    exact Resumes.feedAll msgs hstep

/-- Once `e` is the book the consumer resumed at, so is the consumer's. -/
theorem Resumes.arrived (h : Resumes base u e) (hc : e.complete = true) (hr : e.rests = base)
    (hp : e.pending = []) : u.rests = base ∧ u.pending = [] := by
  cases h with
  | behind cs hp' hu =>
    rw [hp] at hp'
    exact ⟨hu, (List.append_eq_nil_iff.mp hp'.symm).2⟩
  | ahead cs _ _ hinc =>
    rw [hc] at hinc
    cases hinc
  | level hp' h =>
    refine ⟨?_, hp'.trans hp⟩
    rcases h hc with hsame | ⟨r, cs, hu, he⟩
    · rw [hsame, hr]
    · rw [hu, ← hr, he, Resting.foldChanges_idempotent]

/-- **A consumer handed a whole book and then the batches that built it holds that book.** -/
theorem resumes_tracks {e₀ : EventBook} {msgs : List NormalizedBook}
    (hc : (e₀.feedAll msgs).complete = true) (hp : (e₀.feedAll msgs).pending = []) (flag : Bool) :
    Tracks ((⟨(e₀.feedAll msgs).rests, [], flag⟩ : EventBook).feedAllFree msgs) (e₀.feedAll msgs) := by
  have hstart : Resumes (e₀.feedAll msgs).rests ⟨(e₀.feedAll msgs).rests, [], flag⟩ e₀ :=
    .behind e₀.pending (List.append_nil _).symm rfl
  obtain ⟨hrests, hpending⟩ := (hstart.feedAll msgs).arrived hc rfl hp
  exact ⟨hp.trans hpending.symm, fun _ => hrests.symm⟩

end EventBook

end EdgeConnect
