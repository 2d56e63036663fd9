import EdgeConnect.Ingest.MarketEvents
import EdgeConnect.Lib.Machine

/-!
# No order grows on the raced wire

Any number of publishers race one order-level market.  For one order, `sentBy p` are the sizes one
publisher claims for it and `deliveries` those that reached the wire.

* `Sent` — a publisher's own claims are numbers that only shrink towards `0`;
* `Holds` — a step forgets nothing it held of the order, and no re-baseline raises it;
* `RaceInv` — the floor is below everything delivered, and an owned floor is one of its owner's claims;
* `no_order_grows` — the delivered sizes only shrink, and nothing follows a `0`.
-/

set_option autoImplicit false

namespace EdgeConnect.Arbiter

/-! ## Runs -/

/-- One operation on a market's race state.  The removed-entry budget is shared by all markets, so the
others may move it in between. -/
inductive RaceOp where
  | admitEvent (ev : OrderEvent) (publisher : Transport) (arrivalNs sourceTs windowNs : Nat)
  | forgetExpired (frontier : Option Nat)
  | forgetOldestRemoved
  | rebaselined (changes : List BookChange) (seedTs : Nat)
  | takeForced
  | otherMarkets (budget : GuardBudget)

def raceStep (s : MarketEvents × GuardBudget) :
    RaceOp → (MarketEvents × GuardBudget) × Option EventVerdict
  | .admitEvent ev publisher arrivalNs sourceTs windowNs =>
    let r := s.1.admitEvent ev publisher arrivalNs sourceTs windowNs s.2
    ((r.1, r.2.1), some r.2.2)
  | .forgetExpired frontier => (s.1.forgetExpired frontier s.2, none)
  | .forgetOldestRemoved =>
    let r := s.1.forgetOldestRemoved s.2
    ((r.1, r.2.1), none)
  | .rebaselined changes seedTs => (s.1.rebaselined changes seedTs s.2, none)
  | .takeForced => (({ s.1 with forced := none }, s.2), none)
  | .otherMarkets budget => ((s.1, budget), none)

/-- One market's race state as a machine. -/
def race : Machine (MarketEvents × GuardBudget) RaceOp (Option EventVerdict) := ⟨raceStep⟩

def raceInit : MarketEvents × GuardBudget := (.default, .default)

/-- The size an operation claims for order `x` on behalf of `p`. -/
def RaceOp.claim (x : Nat) (p : Transport) : RaceOp → Option F64
  | .admitEvent ev publisher _ _ _ => if ev.orderId = x ∧ publisher = p then some ev.size else none
  | _ => none

/-- The sizes one publisher claims for an order, in order. -/
def sentBy (x : Nat) (p : Transport) (ops : List RaceOp) : List F64 := ops.filterMap (RaceOp.claim x p)

/-- The size a step delivers for order `x`. -/
def delivery (x : Nat) : RaceOp × Option EventVerdict → Option F64
  | (.admitEvent ev _ _ _ _, some .deliver) => if ev.orderId = x then some ev.size else none
  | _ => none

/-- The sizes delivered for an order, in order. -/
def deliveries (x : Nat) (t : List (RaceOp × Option EventVerdict)) : List F64 :=
  t.filterMap (delivery x)

/-- Each publisher's own claims for the order never grow and are numbers from `0` up. -/
def Sent (x : Nat) (ops : List RaceOp) : Prop :=
  ∀ p, (sentBy x p ops).Pairwise (fun a b => b.le a = true) ∧
    ∀ z ∈ sentBy x p ops, F64.zero.le z = true

/-- The step keeps the entry of order `x` once it has one, and a re-baseline does not raise it. -/
def Holds (x : Nat) (s : MarketEvents × GuardBudget) (op : RaceOp) : Prop :=
  ((s.1.slot x).isSome = true ∨ (delivery x (op, (raceStep s op).2)).isSome = true →
    ((raceStep s op).1.1.slot x).isSome = true) ∧
  ∀ changes seedTs, op = .rebaselined changes seedTs → ∀ c ∈ changes, c.orderId = x →
    c.size.isNan = false ∧ ∀ sl, s.1.slot x = some sl → c.size.le sl.size = true

/-! ## The invariant -/

structure RaceInv (x : Nat) (t : List (RaceOp × Option EventVerdict)) (e : MarketEvents) : Prop where
  sent : ∀ d ∈ deliveries x t, ∃ p, d ∈ sentBy x p (t.map Prod.fst)
  shrinks : (deliveries x t).Pairwise fun a b => b.ord ≤ a.ord
  empty : e.slot x = none → deliveries x t = []
  floor : ∀ s, e.slot x = some s → s.size.isNan = false ∧ ∀ d ∈ deliveries x t, s.size.ord ≤ d.ord
  owner : ∀ s p, e.slot x = some s → s.owner = some p → s.size ∈ sentBy x p (t.map Prod.fst)

variable {x : Nat} {t : List (RaceOp × Option EventVerdict)} {e e' : MarketEvents}

theorem mem_sentBy_snoc {p : Transport} {z : F64} {op : RaceOp} {o : Option EventVerdict}
    (h : z ∈ sentBy x p (t.map Prod.fst)) : z ∈ sentBy x p ((t ++ [(op, o)]).map Prod.fst) := by
  unfold sentBy at h ⊢
  rw [List.map_append, List.filterMap_append, List.mem_append]
  exact Or.inl h

theorem sent_of_snoc {op : RaceOp} {o : Option EventVerdict}
    (h : Sent x ((t ++ [(op, o)]).map Prod.fst)) : Sent x (t.map Prod.fst) := by
  intro p
  have hp := h p
  unfold sentBy at hp ⊢
  rw [List.map_append, List.filterMap_append] at hp
  exact ⟨(List.pairwise_append.mp hp.1).1, fun z hz => hp.2 z (List.mem_append_left _ hz)⟩

/-- A step that delivers nothing for the order and leaves its slot alone changes nothing. -/
theorem RaceInv.unchanged (h : RaceInv x t e) {op : RaceOp} {o : Option EventVerdict}
    (hdel : delivery x (op, o) = none) (hslot : e'.slot x = e.slot x) :
    RaceInv x (t ++ [(op, o)]) e' := by
  have hsame : deliveries x (t ++ [(op, o)]) = deliveries x t := by
    unfold deliveries
    rw [List.filterMap_append]
    simp [hdel]
  refine ⟨?_, ?_, ?_, ?_, fun s p hs hp => ?_⟩
  · rw [hsame]
    intro d hd
    obtain ⟨p, hp⟩ := h.sent d hd
    exact ⟨p, mem_sentBy_snoc hp⟩
  · rw [hsame]; exact h.shrinks
  · rw [hsame, hslot]; exact h.empty
  · rw [hsame, hslot]; exact h.floor
  · rw [hslot] at hs
    exact mem_sentBy_snoc (h.owner s p hs hp)

theorem claimed_nonneg (hsent : Sent x (t.map Prod.fst)) {p : Transport} {z : F64}
    (hz : z ∈ sentBy x p (t.map Prod.fst)) : z.isNan = false ∧ 0 ≤ z.ord := by
  have h := F64.le_iff.mp ((hsent p).2 z hz)
  exact ⟨h.2.1, by simpa using h.2.2⟩

theorem removed_ord {s : Slot} (h : s.removed = true) : s.size.ord = 0 := by
  have := (F64.eq_iff.mp h).2.2
  simpa using this

/-- **One delivery** is at most everything delivered before it, and becomes the floor. -/
theorem RaceInv.deliver (h : RaceInv x t e) {ev : OrderEvent} {publisher : Transport}
    {arrivalNs sourceTs windowNs : Nat} {op : RaceOp}
    (hop : op = .admitEvent ev publisher arrivalNs sourceTs windowNs) (hx : ev.orderId = x)
    (hsent : Sent x ((t ++ [(op, some EventVerdict.deliver)]).map Prod.fst))
    (hd : MarketEvents.Delivered (e.slot x) (e'.slot x) ev publisher sourceTs)
    (hheld : (e'.slot x).isSome = true) : RaceInv x (t ++ [(op, some .deliver)]) e' := by
  have hdel : deliveries x (t ++ [(op, some .deliver)]) = deliveries x t ++ [ev.size] := by
    unfold deliveries
    rw [List.filterMap_append, hop]
    simp [delivery, hx]
  have hclaim : sentBy x publisher ((t ++ [(op, some EventVerdict.deliver)]).map Prod.fst) =
      sentBy x publisher (t.map Prod.fst) ++ [ev.size] := by
    unfold sentBy
    rw [List.map_append, List.filterMap_append, hop]
    simp [RaceOp.claim, hx]
  have hmine : ev.size ∈ sentBy x publisher
      ((t ++ [(op, some EventVerdict.deliver)]).map Prod.fst) := by
    rw [hclaim]; simp
  obtain ⟨hnan, hpos⟩ := claimed_nonneg hsent hmine
  -- earlier claims of the same publisher are no smaller
  have hearlier : ∀ z ∈ sentBy x publisher (t.map Prod.fst), ev.size.ord ≤ z.ord := by
    intro z hz
    have hp := (hsent publisher).1
    rw [hclaim, List.pairwise_append] at hp
    exact (F64.le_iff.mp (hp.2.2 z hz ev.size (by simp))).2.2
  have hnonneg : ∀ d ∈ deliveries x t, 0 ≤ d.ord := by
    intro d hd'
    obtain ⟨p, hp⟩ := h.sent d hd'
    exact (claimed_nonneg (sent_of_snoc hsent) hp).2
  -- the new size is at most everything delivered, and the new slot's floor is that size or below it
  obtain ⟨hle, hfloor⟩ : (∀ d ∈ deliveries x t, ev.size.ord ≤ d.ord) ∧
      ∀ s, e'.slot x = some s → s.size.isNan = false ∧ s.size.ord ≤ ev.size.ord ∧
        (∀ d ∈ deliveries x t, s.size.ord ≤ d.ord) ∧
        (∀ p, s.owner = some p →
          s.size ∈ sentBy x p ((t ++ [(op, some EventVerdict.deliver)]).map Prod.fst)) := by
    cases hd with
    | repeated s hs hrem hzero hafter =>
      have hz : ev.size.ord = 0 := by simpa using (F64.eq_iff.mp hzero).2.2
      have hs0 := removed_ord hrem
      obtain ⟨hsn, hsf⟩ := h.floor s hs
      refine ⟨fun d hd' => by have := hsf d hd'; omega, fun s' hs' => ?_⟩
      rw [hafter, hs] at hs'
      cases hs'
      exact ⟨hsn, by omega, hsf, fun p hp => mem_sentBy_snoc (h.owner s p hs hp)⟩
    | removed hlive hzero hafter =>
      have hz : ev.size.ord = 0 := by simpa using (F64.eq_iff.mp hzero).2.2
      refine ⟨fun d hd' => by have := hnonneg d hd'; omega, fun s' hs' => ?_⟩
      rw [hafter] at hs'
      cases hs'
      exact ⟨rfl, by simpa using hpos, fun d hd' => by simpa using hnonneg d hd', nofun⟩
    | tracked hnew hsize hafter =>
      have hnone := h.empty hnew
      refine ⟨fun d hd' => (by rw [hnone] at hd'; cases hd'), fun s' hs' => ?_⟩
      rcases hafter with hafter | hafter
      · rw [hafter] at hs'
        cases hs'
        refine ⟨hnan, Int.le_refl _, fun d hd' => (by rw [hnone] at hd'; cases hd'), fun p hp => ?_⟩
        cases hp
        exact hmine
      · rw [hafter] at hs'; cases hs'
    | shrunk s hs hlive hsize hts hless hafter =>
      obtain ⟨-, hsf⟩ := h.floor s hs
      have hlt := (F64.lt_iff.mp hless).2.2
      have hall : ∀ d ∈ deliveries x t, ev.size.ord ≤ d.ord := fun d hd' => by
        have := hsf d hd'; omega
      refine ⟨hall, fun s' hs' => ?_⟩
      rw [hafter] at hs'
      cases hs'
      refine ⟨hnan, Int.le_refl _, hall, fun p hp => ?_⟩
      cases hp
      exact hmine
    | kept s hs hlive hsize hts hmore hnotless hafter =>
      obtain ⟨hsn, hsf⟩ := h.floor s hs
      -- a larger size is only kept for the floor's owner, whose claims never grow
      have hle : ev.size.ord ≤ s.size.ord := by
        by_contra hgt
        have howner := hmore (F64.lt_iff.mpr ⟨hsn, hnan, by omega⟩)
        have := hearlier s.size (h.owner s publisher hs howner)
        omega
      have hge : s.size.ord ≤ ev.size.ord := by
        by_contra hlt
        have : ev.size.lt s.size = true := F64.lt_iff.mpr ⟨hnan, hsn, by omega⟩
        rw [this] at hnotless
        cases hnotless
      refine ⟨fun d hd' => by have := hsf d hd'; omega, fun s' hs' => ?_⟩
      rw [hafter] at hs'
      cases hs'
      exact ⟨hsn, hge, hsf, fun p hp => mem_sentBy_snoc (h.owner s p hs hp)⟩
  refine ⟨?_, ?_, ?_, ?_, fun s p hs hp => (hfloor s hs).2.2.2 p hp⟩
  · rw [hdel]
    intro d hd'
    rw [List.mem_append, List.mem_singleton] at hd'
    rcases hd' with hd' | rfl
    · obtain ⟨p, hp⟩ := h.sent d hd'
      exact ⟨p, mem_sentBy_snoc hp⟩
    · exact ⟨publisher, hmine⟩
  · rw [hdel, List.pairwise_append]
    refine ⟨h.shrinks, List.pairwise_singleton _ _, fun d hd' z hz => ?_⟩
    rw [List.mem_singleton.mp hz]; exact hle d hd'
  · intro hnone
    rw [hnone] at hheld; cases hheld
  · intro s hs
    obtain ⟨hsn, hsz, hsd, -⟩ := hfloor s hs
    refine ⟨hsn, fun d hd' => ?_⟩
    rw [hdel, List.mem_append, List.mem_singleton] at hd'
    rcases hd' with hd' | rfl
    · exact hsd d hd'
    · exact hsz

/-- A slot that an operation left alone or dropped was left alone, if the entry is held. -/
theorem slot_of_held (h : e'.slot x = e.slot x ∨ e'.slot x = none)
    (hheld : (e.slot x).isSome = true → (e'.slot x).isSome = true) : e'.slot x = e.slot x := by
  rcases h with h | h
  · exact h
  · cases hs : e.slot x with
    | none => exact h
    | some s => rw [hs, h] at hheld; exact absurd (hheld rfl) (by simp)

/-- **One step of the race** keeps the invariant. -/
theorem RaceInv.step {s : MarketEvents × GuardBudget} {op : RaceOp} (h : RaceInv x t s.1)
    (hok : Holds x s op) (hsent : Sent x ((t ++ [(op, (raceStep s op).2)]).map Prod.fst)) :
    RaceInv x (t ++ [(op, (raceStep s op).2)]) (raceStep s op).1.1 := by
  have hkeep : (s.1.slot x).isSome = true → ((raceStep s op).1.1.slot x).isSome = true :=
    fun hs => hok.1 (Or.inl hs)
  cases op with
  | admitEvent ev publisher arrivalNs sourceTs windowNs =>
    have hspec := s.1.admitEvent_slot s.2 (x := x) ev publisher arrivalNs sourceTs windowNs
    simp only [raceStep] at hkeep hsent ⊢
    by_cases hx : ev.orderId = x
    · by_cases hv : (s.1.admitEvent ev publisher arrivalNs sourceTs windowNs s.2).2.2 = .deliver
      · have hdel := hspec.2.1 hv
        have hheld := hok.1 (Or.inr (by simp [raceStep, hv, delivery, hx]))
        rw [hv] at hsent ⊢
        rw [hx] at hdel
        exact h.deliver rfl hx hsent hdel hheld
      · have hsame := hspec.1 hv
        rw [hx] at hsame
        refine h.unchanged ?_ hsame
        unfold delivery
        split
        · rename_i he
          simp only [Prod.mk.injEq, Option.some.injEq] at he
          exact absurd he.2 hv
        · rfl
    · refine h.unchanged ?_ (slot_of_held ?_ hkeep)
      · unfold delivery
        split
        · rename_i he
          simp only [Prod.mk.injEq, RaceOp.admitEvent.injEq] at he
          rw [if_neg (by rw [← he.1.1]; exact hx)]
        · rfl
      · rcases hspec.2.2 (Ne.symm hx) with hs | hs
        · exact Or.inl hs
        · exact Or.inr hs.1
  | forgetExpired frontier =>
    refine h.unchanged rfl (slot_of_held ?_ hkeep)
    rcases s.1.forgetExpired_slot s.2 (x := x) frontier with hs | hs
    · exact Or.inl hs
    · exact Or.inr hs.1
  | forgetOldestRemoved =>
    exact h.unchanged rfl (slot_of_held (s.1.forgetOldestRemoved_slot s.2) hkeep)
  | rebaselined changes seedTs =>
    have hraise := hok.2 changes seedTs rfl
    have hseed := MarketEvents.seed_slot (x := x) seedTs changes
      { s.1 with seen := ∅, order := [], forced := none } s.2
    rcases hseed with hs | hs | ⟨c, hc, hid, -, hs⟩
    · exact h.unchanged rfl hs
    · exact h.unchanged rfl (slot_of_held (Or.inr hs.1) hkeep)
    · obtain ⟨hnan, hle⟩ := hraise c hc hid
      have hs' : (raceStep s (.rebaselined changes seedTs)).1.1.slot x =
          some ⟨seedTs, c.size, none⟩ := hs
      have hsame : deliveries x (t ++ [(.rebaselined changes seedTs,
          (raceStep s (.rebaselined changes seedTs)).2)]) = deliveries x t := by
        unfold deliveries
        rw [List.filterMap_append]
        simp [delivery]
      refine ⟨?_, ?_, fun hn => ?_, fun sl hsl => ?_, fun sl p hsl hp => ?_⟩
      · rw [hsame]
        intro d hd
        obtain ⟨p, hp⟩ := h.sent d hd
        exact ⟨p, mem_sentBy_snoc hp⟩
      · rw [hsame]; exact h.shrinks
      · rw [hs'] at hn; cases hn
      · rw [hs'] at hsl
        cases hsl
        rw [hsame]
        refine ⟨hnan, fun d hd => ?_⟩
        cases hold : s.1.slot x with
        | none => rw [h.empty hold] at hd; cases hd
        | some sl =>
          have hlow := (F64.le_iff.mp (hle sl hold)).2.2
          have := (h.floor sl hold).2 d hd
          show c.size.ord ≤ d.ord
          omega
      · rw [hs'] at hsl
        cases hsl
        cases hp
  | takeForced => exact h.unchanged rfl rfl
  | otherMarkets budget => exact h.unchanged rfl rfl

/-! ## Every run -/

/-- **No order grows on the raced wire.** Whatever the interleaving, stamps, arrival times and windows:
if each publisher's claims for an order only shrink, so do the sizes delivered for it, and no positive
size follows a `0`, as long as its entry is held and no re-baseline raises it. -/
theorem no_order_grows (x : Nat) (ops : List RaceOp) (hsent : Sent x ops)
    (hheld : race.Along (Holds x) raceInit ops) :
    (deliveries x (race.trace raceInit ops)).Pairwise (fun a b => b.le a = true) ∧
    ∀ xs z ys, deliveries x (race.trace raceInit ops) = xs ++ z :: ys → z.eq F64.zero = true →
      ∀ y ∈ ys, F64.zero.lt y = false := by
  have hinv : Sent x ((race.trace raceInit ops).map Prod.fst) →
      RaceInv x (race.trace raceInit ops) (race.exec raceInit ops).1 := by
    refine Machine.along_history_rule
      (P := fun t s => Sent x (t.map Prod.fst) → RaceInv x t s.1) (fun _ => ?_)
      (fun t s op hok h hsent' => RaceInv.step (h (sent_of_snoc hsent')) hok hsent') ops hheld
    exact ⟨nofun, List.Pairwise.nil, fun _ => rfl, nofun, nofun⟩
  rw [Machine.map_fst_trace] at hinv
  have h := hinv hsent
  have hnum : ∀ d ∈ deliveries x (race.trace raceInit ops), d.isNan = false := by
    intro d hd
    obtain ⟨p, hp⟩ := h.sent d hd
    rw [Machine.map_fst_trace] at hp
    exact (F64.le_iff.mp ((hsent p).2 d hp)).2.1
  refine ⟨?_, fun xs z ys heq hz y hy => ?_⟩
  · refine List.Pairwise.imp_of_mem (fun {a b} ha hb hab => ?_) h.shrinks
    exact F64.le_iff.mpr ⟨hnum b hb, hnum a ha, hab⟩
  · have hshr := h.shrinks
    rw [heq, List.pairwise_append] at hshr
    have hle := (List.pairwise_cons.mp hshr.2.1).1 y hy
    have hz0 := (F64.eq_iff.mp hz).2.2
    rw [Bool.eq_false_iff]
    intro hlt
    have := (F64.lt_iff.mp hlt).2.2
    rw [F64.ord_zero] at this hz0
    omega

/-- Two paths race order `7`: added at `5.0` by the first, filled to `3.0` by the second and removed by the
first. -/
def racedOps : List RaceOp :=
  [.admitEvent ⟨7, .update, 0, 0x4014000000000000⟩ (.edge 1) 10 100 1000,
    .admitEvent ⟨7, .update, 0, 0x4014000000000000⟩ (.edge 2) 11 100 1000,
    .admitEvent ⟨7, .update, 0, 0x4008000000000000⟩ (.edge 2) 12 200 1000,
    .admitEvent ⟨7, .delete, 0, 0⟩ (.edge 1) 13 300 1000]

theorem no_order_grows_raced :
    deliveries 7 (race.trace raceInit racedOps) =
      [⟨0x4014000000000000⟩, ⟨0x4008000000000000⟩, ⟨0⟩] ∧
    (deliveries 7 (race.trace raceInit racedOps)).Pairwise fun a b => b.le a = true := by
  refine ⟨by decide, (no_order_grows 7 racedOps (fun p => ?_) ?_).1⟩
  · by_cases h₁ : p = .edge 1
    · subst h₁; decide
    · by_cases h₂ : p = .edge 2
      · subst h₂; decide
      · have hnone : sentBy 7 p racedOps = [] := by
          simp [sentBy, racedOps, RaceOp.claim, Ne.symm h₁, Ne.symm h₂]
        rw [hnone]
        exact ⟨List.Pairwise.nil, nofun⟩
  · refine ⟨?_, ?_, ?_, ?_, trivial⟩ <;> exact ⟨fun _ => by decide, nofun⟩

end EdgeConnect.Arbiter
