import EdgeConnect.Sinks.Hyperliquid

/-!
# From the arbiter to a client

What every run of the Hyperliquid sink keeps, whatever it publishes.

* `Accounted` — the claims of a coin are the clients' own, so a coin with a subscriber is wanted;
* `Faithful` — every prepared message is what `prepareOne` makes of its batch;
* `Hub.pipeline` — the batches on their way to a client, in order, with a mark where some were lost; `Moves`
  is what a step of the arbiter or the stage can do to it.
-/

set_option autoImplicit false

namespace EdgeConnect

namespace Hl

open Ws (BookSnapshot FeedMessage marketOf publishBook)

/-! ## One client's turn -/

namespace Hub

variable {h : Hub} {i j : Nat} {act : Wanted → HlClient → Wanted × Option HlClient}

theorem turn_of_get {c : HlClient} (hc : h.clients.get i = some c) :
    h.turn i act = { h with
      wanted := (act h.wanted c).1
      clients := (act h.wanted c).2.elim (h.clients.erase i) (h.clients.insert i) } := by
  unfold turn
  rw [hc]

theorem turn_of_none (hc : h.clients.get i = none) : h.turn i act = h := by
  unfold turn
  rw [hc]

/-- A client's turn moves neither the books nor what is on its way to the clients. -/
theorem turn_front : (h.turn i act).books = h.books ∧ (h.turn i act).arriving = h.arriving ∧
    (h.turn i act).backbone = h.backbone ∧ (h.turn i act).stage = h.stage ∧
    (h.turn i act).published = h.published ∧ (h.turn i act).nextId = h.nextId := by
  cases hc : h.clients.get i with
  | none =>
    rw [turn_of_none hc]
    exact ⟨rfl, rfl, rfl, rfl, rfl, rfl⟩
  | some c =>
    rw [turn_of_get hc]
    exact ⟨rfl, rfl, rfl, rfl, rfl, rfl⟩

theorem turn_get_ne (hj : j ≠ i) : (h.turn i act).clients.get j = h.clients.get j := by
  cases hc : h.clients.get i with
  | none => rw [turn_of_none hc]
  | some c =>
    rw [turn_of_get hc]
    cases (act h.wanted c).2 with
    | none => exact FinMap.get_erase_of_ne _ hj
    | some c' => exact FinMap.get_insert_of_ne _ _ hj

/-- The client whose turn it was is what its action left of it. -/
theorem turn_get_self {c' : HlClient} (hc' : (h.turn i act).clients.get i = some c') :
    ∃ c, h.clients.get i = some c ∧ (act h.wanted c).2 = some c' := by
  cases hc : h.clients.get i with
  | none =>
    rw [turn_of_none hc, hc] at hc'
    cases hc'
  | some c =>
    rw [turn_of_get hc] at hc'
    refine ⟨c, rfl, ?_⟩
    revert hc'
    show ((act h.wanted c).2.elim (h.clients.erase i) (h.clients.insert i)).get i = some c' → _
    cases (act h.wanted c).2 with
    | none =>
      intro hc'
      rw [Option.elim_none, FinMap.get_erase_self] at hc'
      cases hc'
    | some c'' =>
      intro hc'
      rw [Option.elim_some, FinMap.get_insert_self] at hc'
      exact hc'

/-- What holds of the acting client after its turn, and held of every other before it, holds of all. -/
theorem turn_all {P : HlClient → Prop}
    (hself : ∀ c c', h.clients.get i = some c → (act h.wanted c).2 = some c' → P c')
    (hrest : ∀ j c, j ≠ i → h.clients.get j = some c → P c) :
    ∀ j c', (h.turn i act).clients.get j = some c' → P c' := by
  intro j c' hc'
  by_cases hj : j = i
  · subst hj
    obtain ⟨c, hc, hact⟩ := turn_get_self hc'
    exact hself c c' hc hact
  · rw [turn_get_ne hj] at hc'
    exact hrest j c' hj hc'

end Hub

/-! ## The claims -/

namespace Wanted

variable {w : Wanted} {coin x : String} {l4 : Bool}

theorem wants_add : ((w.add coin l4).wants x).l4 = (w.wants x).l4 + if x = coin ∧ l4 = true then 1 else 0 := by
  unfold add wants
  rw [FinMap.get_insert]
  by_cases hx : x = coin
  · subst hx
    cases l4 <;> simp
  · simp [hx]

/-- An entry of two zeros and no entry are the same claims. -/
theorem wants_settle (e : Wants) : wants (if e.l2 = 0 ∧ e.l4 = 0 then w.erase coin else w.insert coin e) x =
    if x = coin then e else w.wants x := by
  obtain ⟨l2, l4⟩ := e
  by_cases hx : x = coin
  · rw [if_pos hx, hx]
    split
    · rename_i hzero
      obtain ⟨rfl, rfl⟩ := hzero
      simp [wants]
    · simp [wants]
  · rw [if_neg hx]
    split
    · simp [wants, FinMap.get_erase, hx]
    · simp [wants, FinMap.get_insert, hx]

theorem wants_release :
    ((w.release coin l4).wants x).l4 = (w.wants x).l4 - if x = coin ∧ l4 = true then 1 else 0 := by
  unfold release
  cases hw : w.get coin with
  | none =>
    by_cases hx : x = coin
    · subst hx
      simp [wants, hw]
    · simp [hx]
  | some e =>
    simp only
    rw [wants_settle]
    by_cases hx : x = coin
    · subst hx
      have he : w.wants x = e := by simp [wants, hw]
      rw [he]
      cases l4 <;> simp
    · simp [hx]

end Wanted

/-- Removing by swapping is removing, up to order. -/
theorem swapRemove_perm {α : Type} {l : List α} {i : Nat} (hi : i < l.length) :
    (swapRemove l i).Perm (l.eraseIdx i) := by
  rcases List.eq_nil_or_concat l with rfl | ⟨front, last, rfl⟩
  · exact absurd hi (Nat.not_lt_zero i)
  · unfold swapRemove
    rw [List.concat_eq_append, List.getLast?_concat]
    simp only
    rw [List.concat_eq_append, List.length_append, List.length_singleton] at hi
    by_cases hlast : i < front.length
    · rw [List.set_append_left _ _ hlast, List.dropLast_concat, List.eraseIdx_append_of_lt_length hlast]
      exact (List.set_perm_cons_eraseIdx hlast last).trans (List.perm_append_singleton _ _).symm
    · have hi' : i = front.length := by omega
      subst hi'
      rw [List.set_append_right _ _ (Nat.le_refl _), Nat.sub_self, List.set_cons_zero, List.dropLast_concat,
        List.eraseIdx_append_of_length_le (Nat.le_refl _), Nat.sub_self]
      simp

namespace HlClient

variable {c c' : HlClient} {w w' : Wanted} {coin : String} {sub : Sub}

/-! ### What each request does -/

/-- A subscribe is answered and changes nothing, or starts a subscription that the client does not have,
under the one market its coin names. -/
theorem subscribe_cases (books : BookSnapshot) (iter : List BookKey) (sub : Sub) :
    (∃ x, c.subscribe books iter sub = c.write [x] ∧
        ((∃ text, x = .error text) ∨ (x = .subscribed sub ∧ sub ∈ c.subs))) ∨
      (sub ∉ c.subs ∧ ∃ pinned,
        c.subscribe books iter sub = { c with pinned, phase := .subscribing sub }.write [.subscribed sub] ∧
        ((pinned = c.pinned ∧ ∀ coin, bookCoin sub = some coin → marketsFor books iter coin = []) ∨
          ∃ coin key, bookCoin sub = some coin ∧ marketsFor books iter coin = [key] ∧
            pinned = c.pinned.insert coin key)) := by
  unfold subscribe
  by_cases hlen : c.subs.length ≥ MAX_SUBS
  · rw [if_pos hlen]
    exact Or.inl ⟨_, rfl, Or.inl ⟨_, rfl⟩⟩
  rw [if_neg hlen]
  by_cases hmem : sub ∈ c.subs
  · rw [if_pos hmem]
    exact Or.inl ⟨_, rfl, Or.inr ⟨rfl, hmem⟩⟩
  rw [if_neg hmem]
  cases hcoin : bookCoin sub with
  | none => exact Or.inr ⟨hmem, _, rfl, Or.inl ⟨rfl, nofun⟩⟩
  | some coin =>
    match hmarkets : marketsFor books iter coin with
    | [] =>
      refine Or.inr ⟨hmem, _, by simp only [hmarkets], Or.inl ⟨rfl, ?_⟩⟩
      rintro x hx
      cases hx
      exact hmarkets
    | [key] =>
      exact Or.inr ⟨hmem, _, by simp only [hmarkets], Or.inr ⟨coin, key, rfl, hmarkets, rfl⟩⟩
    | _ :: _ :: _ => exact Or.inl ⟨_, by simp only [hmarkets]; rfl, Or.inl ⟨_, rfl⟩⟩

/-- The pins an unsubscribe leaves. -/
def pinsWithout (c : HlClient) (sub : Sub) : FinMap String BookKey :=
  match bookCoin sub with
  | some coin =>
    if (c.subs.filter fun s => s ≠ sub).any fun s => bookCoin s = some coin then c.pinned
    else c.pinned.erase coin
  | none => c.pinned

/-- The claims an unsubscribe gives back. -/
def unclaimFor (w : Wanted) (c : HlClient) (sub : Sub) : Wanted × HlClient :=
  match bookCoin sub with
  | some coin => if sub ∈ c.subs then unclaim w c coin sub.isL4Book else (w, c)
  | none => (w, c)

theorem unclaim_client (w : Wanted) (c : HlClient) (coin : String) (l4 : Bool) :
    (unclaim w c coin l4).2 = { c with held := (unclaim w c coin l4).2.held } := by
  unfold unclaim
  split <;> rfl

theorem unsubscribe_eq (sub : Sub) : unsubscribe w c sub =
    ((unclaimFor w c sub).1,
      { c with
        held := (unclaimFor w c sub).2.held
        subs := c.subs.filter fun s => s ≠ sub
        pinned := c.pinsWithout sub }.write [.unsubscribed sub]) := by
  unfold unsubscribe unclaimFor pinsWithout
  cases hcoin : bookCoin sub with
  | none => rfl
  | some coin =>
    simp only
    by_cases hmem : sub ∈ c.subs
    · rw [if_pos hmem]
      have hclient := unclaim_client w c coin sub.isL4Book
      generalize unclaim w c coin sub.isL4Book = u at hclient ⊢
      obtain ⟨w', c'⟩ := u
      simp only at hclient ⊢
      rw [hclient]
      split <;> rfl
    · rw [if_neg hmem]
      split <;> rfl

/-- After a gap a client is ended, or has its `l4Book` subscriptions to re-bootstrap. -/
theorem rebootstrap_cases (now : Nat) :
    (∃ frames, (∀ f, Wire.l4Book f ∉ frames) ∧ (∀ s, .subscribed s ∉ frames ∧ .unsubscribed s ∉ frames) ∧
        c.rebootstrap now = { c with phase := .closing }.write frames) ∨
      c.rebootstrap now = { c with
        lastRebootstrap := some now, phase := .rebootstrapping (c.subs.filter Sub.isL4Book) } := by
  unfold rebootstrap
  split
  · exact Or.inl ⟨_, by simp, by simp, rfl⟩
  · exact Or.inr rfl

/-! ### Claims and subscriptions -/

/-- The subscriptions a client has claimed: its own, and one whose bootstrap it is about to read. -/
def claims (c : HlClient) : List Sub :=
  match c.phase with
  | .bootstrapping sub => c.subs ++ [sub]
  | _ => c.subs

/-- A client that is not ending holds one claim for each `l4Book` subscription, and has none twice. -/
structure Shape (c : HlClient) : Prop where
  nodup : c.claims.Nodup
  asked : ∀ sub, c.phase = .subscribing sub → sub ∉ c.subs
  held : ∀ coin, c.held.count (coin, true) = c.claims.count (.l4Book coin)

/-- Shared claims moved by as much as the client's own. -/
def Balanced (w : Wanted) (c : HlClient) (w' : Wanted) (c' : Option HlClient) : Prop :=
  ∀ coin, (w'.wants coin).l4 + c.held.count (coin, true) =
    (w.wants coin).l4 + c'.elim 0 fun c' => c'.held.count (coin, true)

theorem balanced_of_held (hheld : c'.held = c.held) : Balanced w c w (some c') := by
  intro coin
  rw [Option.elim_some, hheld]

theorem claims_of_ready (hp : c.phase = .ready) : c.claims = c.subs := by
  unfold claims
  rw [hp]

theorem count_claim (l4 : Bool) (x : String) :
    ((claim w c coin l4).2.held).count (x, true) = c.held.count (x, true) +
      if x = coin ∧ l4 = true then 1 else 0 := by
  show (c.held ++ [(coin, l4)]).count (x, true) = _
  rw [List.count_append, List.count_singleton]
  congr 1
  by_cases hx : x = coin
  · cases l4 <;> simp [hx]
  · simp [hx, Ne.symm hx]

theorem balanced_claim (l4 : Bool) : Balanced w c (claim w c coin l4).1 (some (claim w c coin l4).2) := by
  intro x
  rw [Option.elim_some, count_claim]
  show ((w.add coin l4).wants x).l4 + _ = _
  rw [Wanted.wants_add]
  omega

/-- Giving a held claim back takes one off both counts; one that is not held is not given back. -/
theorem unclaim_spec (w : Wanted) (c : HlClient) (coin : String) (l4 : Bool) (x : String) :
    ((unclaim w c coin l4).2.held).count (x, true) =
        c.held.count (x, true) - (if x = coin ∧ l4 = true then 1 else 0) ∧
      ((c.held.count (x, true) ≤ (w.wants x).l4) →
        ((unclaim w c coin l4).1.wants x).l4 + c.held.count (x, true) =
          (w.wants x).l4 + ((unclaim w c coin l4).2.held).count (x, true)) := by
  unfold unclaim
  cases hidx : c.held.findIdx? fun y => y = (coin, l4) with
  | none =>
    have hnone : c.held.count (coin, l4) = 0 := by
      rw [List.count_eq_zero]
      intro hmem
      have := List.findIdx?_eq_none_iff.mp hidx _ hmem
      simp at this
    refine ⟨?_, fun _ => rfl⟩
    by_cases hx : x = coin ∧ l4 = true
    · obtain ⟨rfl, rfl⟩ := hx
      simp only
      rw [hnone, Nat.zero_sub]
    · rw [if_neg hx, Nat.sub_zero]
  | some i =>
    obtain ⟨hi, hat, -⟩ := List.findIdx?_eq_some_iff_getElem.mp hidx
    have hat' : c.held[i] = (coin, l4) := by simpa using hat
    have hcount : (swapRemove c.held i).count (x, true) =
        c.held.count (x, true) - if x = coin ∧ l4 = true then 1 else 0 := by
      rw [(swapRemove_perm hi).count_eq]
      have hperm := (List.getElem_cons_eraseIdx_perm hi).count_eq (x, true)
      rw [hat', List.count_cons] at hperm
      by_cases hx : x = coin ∧ l4 = true
      · obtain ⟨rfl, rfl⟩ := hx
        simp at hperm ⊢
        omega
      · have hne : ¬ ((coin, l4) == (x, true)) = true := by
          intro he
          have := beq_iff_eq.mp he
          exact hx ⟨(congrArg Prod.fst this).symm, congrArg Prod.snd this⟩
        rw [if_neg hne] at hperm
        rw [if_neg hx]
        omega
    refine ⟨hcount, fun hle => ?_⟩
    show ((w.release coin l4).wants x).l4 + _ = _ + (swapRemove c.held i).count (x, true)
    rw [Wanted.wants_release, hcount]
    by_cases hx : x = coin ∧ l4 = true
    · have hpos : 0 < c.held.count (x, true) := by
        obtain ⟨rfl, rfl⟩ := hx
        exact List.count_pos_iff.mpr (hat' ▸ List.getElem_mem hi)
      rw [if_pos hx]
      omega
    · rw [if_neg hx]
      omega

/-- **An unsubscribe gives back the claim of the subscription it ends.** -/
theorem unclaimFor_spec (hs : c.Shape) (hp : c.phase = .ready) (sub : Sub) (x : String) :
    ((unclaimFor w c sub).2.held).count (x, true) = (c.subs.filter fun s => s ≠ sub).count (.l4Book x) ∧
      ((c.held.count (x, true) ≤ (w.wants x).l4) →
        ((unclaimFor w c sub).1.wants x).l4 + c.held.count (x, true) =
          (w.wants x).l4 + ((unclaimFor w c sub).2.held).count (x, true)) := by
  have hheld := hs.held x
  rw [claims_of_ready hp] at hheld
  have hnodup : c.subs.Nodup := claims_of_ready hp ▸ hs.nodup
  by_cases hsub : sub = .l4Book x
  · subst hsub
    have hzero : (c.subs.filter fun s => s ≠ Sub.l4Book x).count (.l4Book x) = 0 := by
      rw [List.count_eq_zero]
      simp
    rw [hzero]
    show ((if Sub.l4Book x ∈ c.subs then unclaim w c x true else (w, c)).2.held).count (x, true) = 0 ∧ _
    by_cases hmem : Sub.l4Book x ∈ c.subs
    · have hu := unclaim_spec w c x true x
      have hone : c.held.count (x, true) = 1 := by rw [hheld, List.count_eq_one_of_mem hnodup hmem]
      have heq : unclaimFor w c (.l4Book x) = unclaim w c x true := if_pos hmem
      rw [if_pos hmem, heq, hu.1, hone]
      refine ⟨by simp, fun hle => ?_⟩
      have := hu.2 (hone ▸ hle)
      rw [hu.1, hone] at this
      exact this
    · have hnone : c.held.count (x, true) = 0 := by rw [hheld, List.count_eq_zero.mpr hmem]
      have heq : unclaimFor w c (.l4Book x) = (w, c) := if_neg hmem
      rw [if_neg hmem, heq]
      exact ⟨hnone, fun _ => rfl⟩
  · have hcount : (c.subs.filter fun s => s ≠ sub).count (.l4Book x) = c.subs.count (.l4Book x) := by
      rw [List.count_filter]
      simpa using Ne.symm hsub
    rw [hcount, ← hheld]
    unfold unclaimFor
    cases hcoin : bookCoin sub with
    | none => exact ⟨rfl, fun _ => rfl⟩
    | some coin =>
      simp only
      by_cases hmem : sub ∈ c.subs
      · rw [if_pos hmem]
        have hother : ¬ (x = coin ∧ sub.isL4Book = true) := by
          rintro ⟨rfl, hl4⟩
          cases sub with
          | l4Book coin =>
            cases hcoin
            exact hsub rfl
          | l2Book => cases hl4
          | trades => cases hl4
        have hu := unclaim_spec w c coin sub.isL4Book x
        rw [if_neg hother, Nat.sub_zero] at hu
        exact hu
      · rw [if_neg hmem]
        exact ⟨rfl, fun _ => rfl⟩

theorem Shape.keep (hs : c.Shape) (hheld : c'.held = c.held) (hclaims : c'.claims = c.claims)
    (hasked : ∀ sub, c'.phase = .subscribing sub → sub ∉ c'.subs) : c'.Shape := by
  refine ⟨?_, hasked, fun coin => ?_⟩
  · rw [hclaims]
    exact hs.nodup
  · rw [hheld, hclaims]
    exact hs.held coin

theorem shape_fresh : fresh.Shape := ⟨List.nodup_nil, nofun, fun _ => rfl⟩

/-- A client answers a request with its claims in order. -/
theorem control_accounts (hs : c.Shape) (hp : c.phase = .ready)
    (hle : ∀ x, c.held.count (x, true) ≤ (w.wants x).l4) (books : BookSnapshot) (iter : List BookKey)
    (request : Control) :
    Balanced w c (control books iter w c request).1 (some (control books iter w c request).2) ∧
      (control books iter w c request).2.Shape := by
  cases request with
  | ping =>
    refine ⟨balanced_of_held rfl, hs.keep rfl rfl ?_⟩
    exact fun sub hsub => hs.asked sub hsub
  | subscribe sub =>
    show Balanced w c w (some (c.subscribe books iter sub)) ∧ (c.subscribe books iter sub).Shape
    rcases subscribe_cases books iter sub with ⟨x, heq, -⟩ | ⟨hmem, pinned, heq, -⟩
    · rw [heq]
      exact ⟨balanced_of_held rfl, hs.keep rfl rfl fun sub hsub => hs.asked sub hsub⟩
    · rw [heq]
      refine ⟨balanced_of_held rfl, hs.keep rfl ?_ ?_⟩
      · rw [claims_of_ready hp]
        rfl
      · intro sub' hsub'
        cases hsub'
        exact hmem
  | unsubscribe sub =>
    show Balanced w c (unsubscribe w c sub).1 (some (unsubscribe w c sub).2) ∧ (unsubscribe w c sub).2.Shape
    rw [unsubscribe_eq]
    have hspec := unclaimFor_spec (w := w) hs hp sub
    refine ⟨fun x => (hspec x).2 (hle x), ?_, ?_, ?_⟩
    · rw [claims_of_ready (by exact hp)]
      exact (claims_of_ready hp ▸ hs.nodup).filter _
    · intro sub' hsub'
      exact absurd (hp.symm.trans hsub') nofun
    · intro x
      rw [claims_of_ready (by exact hp)]
      exact (hspec x).1

/-- A claim is counted for the `l4Book` subscription it is made for, and for no other. -/
theorem count_claim_sub (hcoin : bookCoin sub = some coin) (x : String) :
    (if x = coin ∧ sub.isL4Book = true then 1 else 0) = [sub].count (.l4Book x) := by
  rw [List.count_singleton]
  cases sub with
  | l2Book => simp [Sub.isL4Book]
  | trades => cases hcoin
  | l4Book coin' =>
    cases hcoin
    by_cases hx : x = coin
    · simp [Sub.isL4Book, hx]
    · simp [Sub.isL4Book, hx, Ne.symm hx]

/-- A client's task moves on with its claims in order. -/
theorem advance_accounts (hs : c.phase ≠ .closing → c.Shape)
    (hle : ∀ x, c.held.count (x, true) ≤ (w.wants x).l4) (books : BookSnapshot) (iter : List BookKey) :
    Balanced w c (advance books iter w c).1 (advance books iter w c).2 ∧
      ∀ c', (advance books iter w c).2 = some c' → c'.phase ≠ .closing → c'.Shape := by
  unfold advance
  cases hp : c.phase with
  | ready =>
    refine ⟨balanced_of_held rfl, ?_⟩
    rintro c' hc' -
    cases hc'
    exact hs (hp ▸ nofun)
  | subscribing sub =>
    have hshape := hs (hp ▸ nofun)
    have hclaims : c.claims = c.subs := by
      unfold claims
      rw [hp]
    have hnodup : (c.subs ++ [sub]).Nodup := by
      rw [List.nodup_append_comm]
      exact List.nodup_cons.mpr ⟨hshape.asked sub hp, hclaims ▸ hshape.nodup⟩
    simp only
    cases hcoin : bookCoin sub with
    | none =>
      refine ⟨balanced_of_held rfl, ?_⟩
      rintro c' hc' -
      cases hc'
      refine ⟨hnodup, nofun, fun x => ?_⟩
      show c.held.count (x, true) = (c.subs ++ [sub]).count (.l4Book x)
      have hother : sub ≠ .l4Book x := by
        rintro rfl
        cases hcoin
      rw [hshape.held x, hclaims, List.count_append, List.count_singleton, beq_false_of_ne hother]
      rfl
    | some coin =>
      refine ⟨balanced_claim _, ?_⟩
      rintro c' hc' -
      cases hc'
      refine ⟨hnodup, nofun, fun x => ?_⟩
      show ((claim w c coin sub.isL4Book).2.held).count (x, true) = (c.subs ++ [sub]).count (.l4Book x)
      rw [count_claim, hshape.held x, hclaims, List.count_append, count_claim_sub hcoin]
  | bootstrapping sub =>
    have hshape := hs (hp ▸ nofun)
    have hclaims : c.claims = c.subs ++ [sub] := by
      unfold claims
      rw [hp]
    refine ⟨balanced_of_held rfl, ?_⟩
    rintro c' hc' -
    cases hc'
    exact hshape.keep rfl hclaims.symm nofun
  | rebootstrapping left =>
    have hshape := hs (hp ▸ nofun)
    have hclaims : c.claims = c.subs := by
      unfold claims
      rw [hp]
    cases left with
    | nil =>
      refine ⟨balanced_of_held rfl, ?_⟩
      rintro c' hc' -
      cases hc'
      exact hshape.keep rfl hclaims.symm nofun
    | cons sub left =>
      refine ⟨balanced_of_held rfl, ?_⟩
      rintro c' hc' -
      cases hc'
      exact hshape.keep rfl hclaims.symm nofun
  | closing =>
    simp only
    cases hheld : c.held with
    | nil =>
      refine ⟨fun x => ?_, nofun⟩
      rw [hheld]
      rfl
    | cons e held =>
      obtain ⟨coin, l4⟩ := e
      refine ⟨fun x => ?_, ?_⟩
      · have hle' := hle x
        rw [hheld, List.count_cons] at hle'
        rw [hheld, Wanted.wants_release, List.count_cons]
        show _ = _ + held.count (x, true)
        by_cases hx : x = coin ∧ l4 = true
        · obtain ⟨rfl, rfl⟩ := hx
          simp at hle' ⊢
          omega
        · have hne : ¬ ((coin, l4) == (x, true)) = true := by
            intro he
            have := beq_iff_eq.mp he
            exact hx ⟨(congrArg Prod.fst this).symm, congrArg Prod.snd this⟩
          rw [if_neg hx, if_neg hne]
          rfl
      · intro c' hc' hc''
        cases hc'
        exact absurd rfl hc''

/-- Reading the queue touches neither claims nor subscriptions, and leaves the client waiting, ended, or with
its `l4Book` subscriptions to re-bootstrap. -/
theorem forward_keeps (hp : c.phase = .ready) (now : Nat) :
    (c.forward now).held = c.held ∧ (c.forward now).subs = c.subs ∧
      ((c.forward now).phase = .ready ∨ (c.forward now).phase = .closing ∨
        (c.forward now).phase = .rebootstrapping (c.subs.filter Sub.isL4Book)) := by
  have hreboot : ∀ c' : HlClient, c'.held = c.held → c'.subs = c.subs →
      (c'.rebootstrap now).held = c.held ∧ (c'.rebootstrap now).subs = c.subs ∧
        ((c'.rebootstrap now).phase = .ready ∨ (c'.rebootstrap now).phase = .closing ∨
          (c'.rebootstrap now).phase = .rebootstrapping (c.subs.filter Sub.isL4Book)) := by
    intro c' hheld hsubs
    rcases rebootstrap_cases (c := c') now with ⟨frames, -, -, heq⟩ | heq
    · rw [heq]
      exact ⟨hheld, hsubs, Or.inr (Or.inl rfl)⟩
    · rw [heq]
      exact ⟨hheld, hsubs, Or.inr (Or.inr (congrArg (fun l => Phase.rebootstrapping (l.filter Sub.isL4Book)) hsubs))⟩
  unfold forward
  split
  · exact ⟨rfl, rfl, Or.inl hp⟩
  · exact hreboot _ rfl rfl
  · split
    · exact hreboot _ rfl rfl
    · exact ⟨rfl, rfl, Or.inl hp⟩
  · unfold frames
    split
    · split
      · split
        · exact ⟨rfl, rfl, Or.inl hp⟩
        · exact ⟨rfl, rfl, Or.inl hp⟩
      · exact ⟨rfl, rfl, Or.inl hp⟩
    · exact ⟨rfl, rfl, Or.inl hp⟩

end HlClient

/-! ## Every claim is some client's -/

/-- The claims of a coin are the clients' own, and every client that is not ending has the claims of its
subscriptions. -/
structure Accounted (h : Hub) : Prop where
  fresh : ∀ i, h.nextId ≤ i → h.clients.get i = none
  shape : ∀ i c, h.clients.get i = some c → c.phase ≠ .closing → c.Shape
  wanted : ∀ coin, (h.wanted.wants coin).l4 = h.clients.sumVals fun _ c => c.held.count (coin, true)

namespace Accounted

variable {h : Hub} {i : Nat} {c : HlClient}

theorem held_le (ha : Accounted h) (hc : h.clients.get i = some c) (x : String) :
    c.held.count (x, true) ≤ (h.wanted.wants x).l4 := by
  rw [ha.wanted]
  have := FinMap.sumVals_erase h.clients (fun _ c => c.held.count (x, true)) i
  rw [hc, Option.elim_some] at this
  omega

/-- **A coin with a subscriber is wanted.** -/
theorem wanted_pos (ha : Accounted h) (hc : h.clients.get i = some c) (hp : c.phase ≠ .closing) {coin : String}
    (hsub : .l4Book coin ∈ c.claims) : (h.wanted.wants coin).l4 ≠ 0 := by
  have hle := ha.held_le hc coin
  rw [(ha.shape i c hc hp).held coin] at hle
  have := List.count_pos_iff.mpr hsub
  omega

theorem turn (ha : Accounted h) {act : Wanted → HlClient → Wanted × Option HlClient}
    (hact : ∀ c, h.clients.get i = some c →
      HlClient.Balanced h.wanted c (act h.wanted c).1 (act h.wanted c).2 ∧
        ∀ c', (act h.wanted c).2 = some c' → c'.phase ≠ .closing → c'.Shape) : Accounted (h.turn i act) := by
  cases hc : h.clients.get i with
  | none =>
    rw [Hub.turn_of_none hc]
    exact ha
  | some c =>
    obtain ⟨hbal, hshape⟩ := hact c hc
    refine ⟨?_, ?_, ?_⟩
    · intro j hj
      have hne : j ≠ i := by
        rintro rfl
        rw [ha.fresh j (Hub.turn_front.2.2.2.2.2 ▸ hj)] at hc
        cases hc
      rw [Hub.turn_get_ne hne]
      exact ha.fresh j (Hub.turn_front.2.2.2.2.2 ▸ hj)
    · refine Hub.turn_all (fun c' c'' hc' => ?_) fun j c' _ hc' => ha.shape j c' hc'
      obtain rfl : c = c' := Option.some.inj (hc.symm.trans hc')
      exact hshape c''
    · intro coin
      rw [Hub.turn_of_get hc]
      simp only
      have hbal := hbal coin
      have hwanted := ha.wanted coin
      cases hc' : (act h.wanted c).2 with
      | none =>
        rw [hc'] at hbal
        have := FinMap.sumVals_erase h.clients (fun _ c => c.held.count (coin, true)) i
        rw [hc, Option.elim_some] at this
        rw [Option.elim_none] at hbal ⊢
        omega
      | some c'' =>
        rw [hc'] at hbal
        have := FinMap.sumVals_insert h.clients (fun _ c => c.held.count (coin, true)) i c''
        rw [hc, Option.elim_some] at this
        rw [Option.elim_some] at hbal ⊢
        omega

theorem turnReady (ha : Accounted h) {act : Wanted → HlClient → Wanted × HlClient}
    (hact : ∀ c, h.clients.get i = some c → c.phase = .ready →
      HlClient.Balanced h.wanted c (act h.wanted c).1 (some (act h.wanted c).2) ∧
        ((act h.wanted c).2.phase ≠ .closing → (act h.wanted c).2.Shape)) : Accounted (h.turnReady i act) := by
  refine ha.turn fun c hc => ?_
  simp only
  by_cases hp : c.phase = .ready
  · rw [if_pos hp]
    refine ⟨(hact c hc hp).1, fun c' hc' => ?_⟩
    cases hc'
    exact (hact c hc hp).2
  · rw [if_neg hp]
    refine ⟨HlClient.balanced_of_held rfl, fun c' hc' => ?_⟩
    cases hc'
    exact ha.shape i c hc

/-- Sending to every client changes no claim. -/
theorem mapRx (ha : Accounted h) (f : Receiver Prepared → Receiver Prepared) :
    Accounted { h with clients := h.clients.mapVals fun c => { c with rx := f c.rx } } := by
  refine ⟨fun i hi => ?_, fun i c hc hp => ?_, fun coin => ?_⟩
  · show (h.clients.get i).map _ = none
    rw [ha.fresh i hi]
    rfl
  · obtain ⟨c', hc', rfl⟩ := Option.map_eq_some_iff.mp hc
    exact (ha.shape i c' hc' hp).keep rfl rfl fun sub hsub => (ha.shape i c' hc' hp).asked sub hsub
  · rw [ha.wanted coin]
    unfold FinMap.sumVals
    refine Finset.sum_congr rfl fun i _ => ?_
    show _ = ((h.clients.get i).map _).elim 0 _
    cases h.clients.get i <;> rfl

theorem init : Accounted .init := ⟨fun _ _ => rfl, nofun, fun _ => rfl⟩

theorem step (ha : Accounted h) (capacity : Nat) (s : Step) : Accounted (h.step capacity s) := by
  cases s with
  | publish m =>
    show Accounted (h.publish m)
    unfold Hub.publish
    split
    · exact ha
    · exact ⟨ha.fresh, ha.shape, ha.wanted⟩
  | append =>
    show Accounted (h.append capacity)
    unfold Hub.append
    split
    · exact ha
    · exact ⟨ha.fresh, ha.shape, ha.wanted⟩
  | stage iter =>
    show Accounted (h.prepare iter)
    unfold Hub.prepare
    split
    · split
      · exact ha
      · exact ⟨ha.fresh, ha.shape, ha.wanted⟩
      · exact ⟨ha.fresh, ha.shape, ha.wanted⟩
    · exact ⟨ha.fresh, ha.shape, ha.wanted⟩
    · exact ⟨ha.fresh, ha.shape, ha.wanted⟩
    · exact ⟨ha.fresh, ha.shape, ha.wanted⟩
    · rename_i p _
      have hmap := ha.mapRx fun rx => rx.send PREPARED_CAPACITY p
      exact ⟨hmap.fresh, hmap.shape, hmap.wanted⟩
  | connect =>
    show Accounted h.connect
    unfold Hub.connect
    split
    · exact ha
    · have hnone := ha.fresh h.nextId (Nat.le_refl _)
      refine ⟨fun i hi => ?_, fun i c hc hp => ?_, fun coin => ?_⟩
      · rw [FinMap.get_insert_of_ne _ _ (Nat.ne_of_gt hi)]
        exact ha.fresh i (Nat.le_of_succ_le hi)
      · rw [FinMap.get_insert] at hc
        split at hc
        · cases hc
          exact HlClient.shape_fresh
        · exact ha.shape i c hc hp
      · have := FinMap.sumVals_insert h.clients (fun _ c => c.held.count (coin, true)) h.nextId .fresh
        rw [hnone, Option.elim_none] at this
        rw [ha.wanted coin]
        exact (Nat.add_right_cancel this).symm
  | control i request iter =>
    refine ha.turnReady fun c hc hp => ?_
    obtain ⟨hbal, hshape⟩ := HlClient.control_accounts (ha.shape i c hc (hp ▸ nofun)) hp (ha.held_le hc) h.books iter
      request
    exact ⟨hbal, fun _ => hshape⟩
  | advance i iter => exact ha.turn fun c hc => HlClient.advance_accounts (ha.shape i c hc) (ha.held_le hc) h.books iter
  | forward i now =>
    show Accounted (h.turnReady i fun w c => (w, c.forward now))
    refine ha.turnReady fun c hc hp => ?_
    obtain ⟨hheld, hsubs, hphase⟩ := HlClient.forward_keeps hp now
    refine ⟨HlClient.balanced_of_held hheld, fun hne => (ha.shape i c hc (hp ▸ nofun)).keep hheld ?_ ?_⟩
    · rw [HlClient.claims_of_ready hp, ← hsubs]
      unfold HlClient.claims
      rcases hphase with hphase | hphase | hphase
      · rw [hphase]
      · rw [hphase]
      · rw [hphase]
    · intro sub hsub
      rcases hphase with hphase | hphase | hphase
      · exact absurd (hphase.symm.trans hsub) nofun
      · exact absurd (hphase.symm.trans hsub) nofun
      · exact absurd (hphase.symm.trans hsub) nofun
  | hangUp i =>
    show Accounted (h.turn i fun w c => (w, some { c with phase := .closing }))
    refine ha.turn fun c hc => ⟨HlClient.balanced_of_held rfl, fun c' hc' hp => ?_⟩
    cases hc'
    exact absurd rfl hp

end Accounted

/-! ## A client's own queue -/

namespace HlClient

variable {c c' : HlClient} {w : Wanted}

theorem rx_control (books : BookSnapshot) (iter : List BookKey) (request : Control) :
    (control books iter w c request).2.rx = c.rx := by
  cases request with
  | ping => rfl
  | subscribe sub =>
    show (c.subscribe books iter sub).rx = c.rx
    rcases subscribe_cases books iter sub with ⟨x, heq, -⟩ | ⟨-, pinned, heq, -⟩
    · rw [heq]
      rfl
    · rw [heq]
      rfl
  | unsubscribe sub =>
    show (unsubscribe w c sub).2.rx = c.rx
    rw [unsubscribe_eq]
    rfl

/-- A request writes no book data. -/
theorem control_wire (books : BookSnapshot) (iter : List BookKey) (request : Control) :
    ∃ frames, (control books iter w c request).2.wire = c.wire ++ frames ∧ ∀ f, .l4Book f ∉ frames := by
  cases request with
  | ping => exact ⟨[.pong], rfl, by simp⟩
  | subscribe sub =>
    show ∃ frames, (c.subscribe books iter sub).wire = _ ∧ _
    rcases subscribe_cases books iter sub with ⟨x, heq, ⟨text, rfl⟩ | ⟨rfl, -⟩⟩ | ⟨-, pinned, heq, -⟩
    · exact ⟨[.error text], by rw [heq]; rfl, by simp⟩
    · exact ⟨[.subscribed sub], by rw [heq]; rfl, by simp⟩
    · exact ⟨[.subscribed sub], by rw [heq]; rfl, by simp⟩
  | unsubscribe sub =>
    show ∃ frames, (unsubscribe w c sub).2.wire = _ ∧ _
    rw [unsubscribe_eq]
    exact ⟨[.unsubscribed sub], rfl, by simp⟩

/-- A request pins a coin only to the one market its name resolves to. -/
theorem control_pinned {books : BookSnapshot} {iter : List BookKey} {request : Control} {coin : String}
    {key : BookKey} (hkey : (control books iter w c request).2.pinned.get coin = some key) :
    c.pinned.get coin = some key ∨ marketsFor books iter coin = [key] := by
  cases request with
  | ping => exact Or.inl hkey
  | subscribe sub =>
    have hkey : (c.subscribe books iter sub).pinned.get coin = some key := hkey
    rcases subscribe_cases books iter sub with ⟨x, heq, -⟩ | ⟨-, pinned, heq, hpinned⟩
    · rw [heq] at hkey
      exact Or.inl hkey
    · rw [heq] at hkey
      have hkey : pinned.get coin = some key := hkey
      rcases hpinned with ⟨rfl, -⟩ | ⟨coin', key', -, hmarkets, rfl⟩
      · exact Or.inl hkey
      · rw [FinMap.get_insert] at hkey
        split at hkey
        · rename_i hcoin
          cases hkey
          exact Or.inr (hcoin ▸ hmarkets)
        · exact Or.inl hkey
  | unsubscribe sub =>
    have hkey : (unsubscribe w c sub).2.pinned.get coin = some key := hkey
    rw [unsubscribe_eq] at hkey
    have hkey : (c.pinsWithout sub).get coin = some key := hkey
    left
    unfold pinsWithout at hkey
    split at hkey
    · split at hkey
      · exact hkey
      · rw [FinMap.get_erase] at hkey
        split at hkey
        · cases hkey
        · exact hkey
    · exact hkey

/-- A request adds no subscription of its own accord, and leaves nothing to re-bootstrap. -/
theorem control_subs (hp : c.phase = .ready) (books : BookSnapshot) (iter : List BookKey) (request : Control) :
    (∀ sub ∈ (control books iter w c request).2.subs, sub ∈ c.subs) ∧
      ((control books iter w c request).2.phase = .ready ∨
        ∃ sub, request = .subscribe sub ∧ sub ∉ c.subs ∧
          (control books iter w c request).2.phase = .subscribing sub) := by
  cases request with
  | ping => exact ⟨fun _ h => h, Or.inl hp⟩
  | subscribe sub =>
    show (∀ x ∈ (c.subscribe books iter sub).subs, x ∈ c.subs) ∧
      ((c.subscribe books iter sub).phase = .ready ∨ ∃ x, Control.subscribe sub = .subscribe x ∧ x ∉ c.subs ∧
        (c.subscribe books iter sub).phase = .subscribing x)
    rcases subscribe_cases books iter sub with ⟨x, heq, -⟩ | ⟨hmem, pinned, heq, -⟩
    · rw [heq]
      exact ⟨fun _ h => h, Or.inl hp⟩
    · rw [heq]
      exact ⟨fun _ h => h, Or.inr ⟨sub, rfl, hmem, rfl⟩⟩
  | unsubscribe sub =>
    show (∀ x ∈ (unsubscribe w c sub).2.subs, x ∈ c.subs) ∧ ((unsubscribe w c sub).2.phase = .ready ∨ _)
    rw [unsubscribe_eq]
    exact ⟨fun _ h => (List.mem_filter.mp h).1, Or.inl hp⟩

theorem rx_advance {books : BookSnapshot} {iter : List BookKey} (hc' : (advance books iter w c).2 = some c') :
    c'.rx = c.rx := by
  unfold advance at hc'
  split at hc'
  · cases hc'
    rfl
  · cases hc'
    simp only
    split <;> rfl
  · cases hc'
    rfl
  · cases hc'
    rfl
  · cases hc'
    rfl
  · split at hc'
    · cases hc'
    · cases hc'
      rfl

theorem rx_rebootstrap (now : Nat) : (c.rebootstrap now).rx = c.rx := by
  rcases rebootstrap_cases now with ⟨frames, -, -, heq⟩ | heq
  · rw [heq]
    rfl
  · rw [heq]

theorem rx_frames (p : PreparedMessage) : (c.frames p).rx = c.rx := by
  unfold frames
  split
  · split
    · split <;> rfl
    · rfl
  · rfl

theorem rx_forward (now : Nat) : (c.forward now).rx = c.rx.recv.1 := by
  unfold forward
  rcases Receiver.recv_cases c.rx with ⟨-, heq⟩ | ⟨-, -, heq⟩ | ⟨x, buf, -, -, heq⟩
  · rw [heq]
    exact rx_rebootstrap now
  · rw [heq]
  · rw [heq]
    cases x with
    | message p => exact rx_frames p
    | resync =>
      simp only
      split
      · exact rx_rebootstrap now
      · rfl

/-- What a prepared batch is to a client: its frame, when the client has the coin's `l4Book` and no other market
under it. -/
theorem frames_wire (hnodup : c.subs.Nodup) {p : PreparedMessage} {b : NormalizedBook}
    (hb : venueBatch p.msg = some b) (hkey : p.key = some (marketOf b)) :
    (c.frames p).wire = c.wire ++
      if .l4Book b.symbol ∈ c.subs ∧ (c.pinned.get b.symbol).all (fun held => held = marketOf b) = true then
        p.l4.toList.map .l4Book
      else [] := by
  unfold frames
  rw [hb, hkey]
  simp only
  by_cases hany : (c.subs.any fun s => bookCoin s = some b.symbol) = true
  · rw [if_pos hany]
    have hpin : ((c.pinned.get b.symbol).any fun held => held ≠ marketOf b) =
        !(c.pinned.get b.symbol).all fun held => held = marketOf b := by
      cases c.pinned.get b.symbol with
      | none => rfl
      | some held => simp
    rw [hpin]
    cases (c.pinned.get b.symbol).all fun held => held = marketOf b with
    | false => simp
    | true =>
      simp only [Bool.not_true, Bool.false_eq_true, if_false, and_true]
      show c.wire ++ _ = _
      congr 1
      by_cases hmem : Sub.l4Book b.symbol ∈ c.subs
      · have hone : (c.subs.filter fun s => s = .l4Book b.symbol) = [.l4Book b.symbol] := by
          rw [List.filter_eq, List.count_eq_one_of_mem hnodup hmem]
          rfl
        rw [if_pos hmem, hone]
        simp
      · have hnone : (c.subs.filter fun s => s = .l4Book b.symbol) = [] := by
          rw [List.filter_eq_nil_iff]
          intro s hs hs'
          exact hmem (of_decide_eq_true hs' ▸ hs)
        rw [if_neg hmem, hnone]
        rfl
  · rw [if_neg hany]
    have hmem : Sub.l4Book b.symbol ∉ c.subs := by
      intro hmem
      exact hany (List.any_eq_true.mpr ⟨_, hmem, decide_eq_true rfl⟩)
    rw [if_neg (fun h => hmem h.1), List.append_nil]

/-- The feed pins a coin to the market it shows, when nothing has pinned the coin before. -/
theorem frames_pinned {p : PreparedMessage} {b : NormalizedBook} (hb : venueBatch p.msg = some b)
    (hkey : p.key = some (marketOf b)) (coin : String) :
    (c.frames p).pinned.get coin =
      if coin = b.symbol ∧ c.pinned.get coin = none ∧ (c.subs.any fun s => bookCoin s = some coin) = true then
        some (marketOf b)
      else c.pinned.get coin := by
  unfold frames
  rw [hb, hkey]
  simp only
  by_cases hany : (c.subs.any fun s => bookCoin s = some b.symbol) = true
  · rw [if_pos hany]
    cases hpin : c.pinned.get b.symbol with
    | none =>
      rw [if_neg (by simp)]
      show (c.pinned.insert b.symbol (marketOf b)).get coin = _
      rw [FinMap.get_insert]
      by_cases hcoin : coin = b.symbol
      · subst hcoin
        rw [if_pos rfl, if_pos ⟨rfl, hpin, hany⟩]
      · rw [if_neg hcoin, if_neg fun h => hcoin h.1]
    | some held =>
      have hnot : ¬ (coin = b.symbol ∧ c.pinned.get coin = none ∧
          (c.subs.any fun s => bookCoin s = some coin) = true) := by
        rintro ⟨rfl, hnone, -⟩
        rw [hpin] at hnone
        cases hnone
      rw [if_neg hnot]
      by_cases hheld : held = marketOf b
      · rw [if_neg (by simpa using hheld)]
        show (c.pinned.insert b.symbol (marketOf b)).get coin = _
        rw [FinMap.get_insert]
        split
        · rename_i hcoin
          rw [hcoin, hpin, hheld]
        · rfl
      · rw [if_pos (by simpa using hheld)]
  · rw [if_neg hany]
    have hnot : ¬ (coin = b.symbol ∧ c.pinned.get coin = none ∧
        (c.subs.any fun s => bookCoin s = some coin) = true) := by
      rintro ⟨rfl, -, hany'⟩
      exact hany hany'
    rw [if_neg hnot]

/-- A message that is no batch of the venue is nothing to a client. -/
theorem frames_of_none {p : PreparedMessage} (hb : venueBatch p.msg = none) : c.frames p = c := by
  unfold frames
  rw [hb]

end HlClient

/-! ## Prepared messages -/

/-- A prepared message is what the stage makes of its batch. -/
def Prepared.Faithful : Prepared → Prop
  | .resync => True
  | .message p => ∀ b, venueBatch p.msg = some b →
    p.key = some (marketOf b) ∧ ∃ market wants idle, p.l4 = renderL4 b market wants idle

theorem prepareOne_faithful (m : FeedMessage) (books : BookSnapshot) (wants : Wants)
    (published : FinMap BookKey MarketOrders) (order : List BookKey) (idle : Bool) :
    (Prepared.message (prepareOne m books wants published order idle).1).Faithful := by
  unfold prepareOne
  cases hb : venueBatch m with
  | none =>
    intro b hb'
    exact absurd (hb.symm.trans hb') nofun
  | some b =>
    intro b' hb'
    obtain rfl : b = b' := Option.some.inj (hb.symm.trans hb')
    exact ⟨rfl, _, _, _, rfl⟩

/-- Every prepared message still to be sent or read is what the stage made of its batch. -/
structure Faithful (h : Hub) : Prop where
  stage : ∀ p, h.stage = .ready p → p.Faithful
  queued : ∀ i c, h.clients.get i = some c → ∀ p ∈ c.rx.buf, p.Faithful

namespace Faithful

variable {h : Hub} {i : Nat}

theorem turn (hf : Faithful h) {act : Wanted → HlClient → Wanted × Option HlClient}
    (hact : ∀ c c', h.clients.get i = some c → (act h.wanted c).2 = some c' → ∀ p ∈ c'.rx.buf, p ∈ c.rx.buf) :
    Faithful (h.turn i act) := by
  refine ⟨fun p hp => hf.stage p (Hub.turn_front.2.2.2.1 ▸ hp), ?_⟩
  refine Hub.turn_all (fun c c' hc hc' p hp => ?_) fun j c _ hc => hf.queued j c hc
  exact hf.queued i c hc p (hact c c' hc hc' p hp)

theorem turnReady (hf : Faithful h) {act : Wanted → HlClient → Wanted × HlClient}
    (hact : ∀ c, ∀ p ∈ (act h.wanted c).2.rx.buf, p ∈ c.rx.buf) : Faithful (h.turnReady i act) := by
  refine hf.turn fun c c' _ hc' => ?_
  simp only at hc'
  split at hc'
  · cases hc'
    exact hact c
  · cases hc'
    exact fun p hp => hp

theorem init : Faithful .init := ⟨fun _ hp => (by cases hp), fun _ _ hc => (by cases hc)⟩

theorem step (hf : Faithful h) (capacity : Nat) (s : Step) : Faithful (h.step capacity s) := by
  cases s with
  | publish m =>
    show Faithful (h.publish m)
    unfold Hub.publish
    split
    · exact hf
    · exact ⟨hf.stage, hf.queued⟩
  | append =>
    show Faithful (h.append capacity)
    unfold Hub.append
    split
    · exact hf
    · exact ⟨hf.stage, hf.queued⟩
  | stage iter =>
    show Faithful (h.prepare iter)
    unfold Hub.prepare
    split
    · split
      · exact hf
      · exact ⟨fun _ hp => (by cases hp), hf.queued⟩
      · exact ⟨fun _ hp => (by cases hp), hf.queued⟩
    · exact ⟨fun _ hp => (by cases hp), hf.queued⟩
    · rename_i m idle wants hstage
      refine ⟨fun p hp => ?_, hf.queued⟩
      cases idle with
      | true => cases hp
      | false =>
        cases hp
        exact prepareOne_faithful m h.books wants h.published h.order false
    · refine ⟨fun p hp => ?_, hf.queued⟩
      cases hp
      trivial
    · rename_i p hstage
      refine ⟨fun _ hp => (by cases hp), fun i c hc q hq => ?_⟩
      obtain ⟨c', hc', rfl⟩ := Option.map_eq_some_iff.mp hc
      have hq : q ∈ (c'.rx.send PREPARED_CAPACITY p).buf := hq
      rcases Receiver.mem_send hq with hq | rfl
      · exact hf.queued i c' hc' q hq
      · exact hf.stage q hstage
  | connect =>
    show Faithful h.connect
    unfold Hub.connect
    split
    · exact hf
    · refine ⟨hf.stage, fun i c hc => ?_⟩
      rw [FinMap.get_insert] at hc
      split at hc
      · cases hc
        exact fun _ hp => by cases hp
      · exact hf.queued i c hc
  | control i request iter =>
    show Faithful (h.turnReady i fun w c => c.control h.books iter w request)
    refine hf.turnReady fun c p hp => ?_
    rwa [HlClient.rx_control] at hp
  | advance i iter =>
    show Faithful (h.turn i fun w c => c.advance h.books iter w)
    refine hf.turn fun c c' _ hc' p hp => ?_
    rwa [HlClient.rx_advance hc'] at hp
  | forward i now =>
    show Faithful (h.turnReady i fun w c => (w, c.forward now))
    refine hf.turnReady fun c p hp => ?_
    rw [HlClient.rx_forward] at hp
    rcases Receiver.recv_cases c.rx with ⟨-, heq⟩ | ⟨-, -, heq⟩ | ⟨x, buf, -, hbuf, heq⟩
    · rwa [heq] at hp
    · rwa [heq] at hp
    · rw [heq] at hp
      rw [hbuf]
      exact List.mem_cons_of_mem x hp
  | hangUp i =>
    show Faithful (h.turn i fun w c => (w, some { c with phase := .closing }))
    refine hf.turn fun c c' _ hc' p hp => ?_
    cases hc'
    exact hp

end Faithful

/-! ## The pipeline -/

/-- A batch on its way to a client.  `frame` is what the stage made of it, once that is settled. -/
structure Passing where
  batch : NormalizedBook
  frame : Option (Option L4Frame)

/-- What a client has still to read: a batch, or word that some were lost. -/
inductive Item where
  | lost
  | batch (q : Passing)

def itemsOf (m : FeedMessage) (frame : Option (Option L4Frame)) : List Item :=
  (venueBatch m).toList.map fun b => .batch ⟨b, frame⟩

theorem itemsOf_none {m : FeedMessage} (hb : venueBatch m = none) (frame : Option (Option L4Frame)) :
    itemsOf m frame = [] := by
  unfold itemsOf
  rw [hb]
  rfl

theorem itemsOf_some {m : FeedMessage} {b : NormalizedBook} (hb : venueBatch m = some b)
    (frame : Option (Option L4Frame)) : itemsOf m frame = [.batch ⟨b, frame⟩] := by
  unfold itemsOf
  rw [hb]
  rfl

def Prepared.items : Prepared → List Item
  | .resync => [.lost]
  | .message p => itemsOf p.msg (some p.l4)

/-- A batch counted with no claim on its coin gets no frame; any other is not rendered yet. -/
def Stage.items : Stage → List Item
  | .waiting => []
  | .took m idle => if idle then [] else itemsOf m none
  | .counted m idle wants => if idle then [] else itemsOf m (if wants.l4 = 0 then some none else none)
  | .gap => [.lost]
  | .ready p => p.items

def lostMark (missed : Bool) : List Item := if missed then [.lost] else []

namespace Hub

/-- What the stage has still to read. -/
def upstream (h : Hub) : List Item :=
  lostMark h.backbone.missed ++ (h.backbone.buf.flatMap (itemsOf · none) ++
    h.arriving.toList.flatMap (itemsOf · none))

/-- What a client has still to read, in order. -/
def pipeline (h : Hub) (c : HlClient) : List Item :=
  lostMark c.rx.missed ++ (c.rx.buf.flatMap Prepared.items ++ (h.stage.items ++ h.upstream))

/-- The stage's memory of a market when its next batch is rendered. -/
def memory (h : Hub) (key : BookKey) : MarketOrders :=
  ((trackMarket h.books h.published h.order key).1.get key).getD ⟨∅, false⟩

end Hub

/-- What a broadcast, and the stage, can do to a client's pipeline: lose some of it, settle that a batch of
a coin nobody wants has no frame, or render a batch. -/
inductive Moves (h : Hub) : List Item → List Item → Prop where
  | same (P : List Item) : Moves h P P
  | lose (F X R : List Item) : Moves h (F ++ (X ++ R)) (F ++ .lost :: R)
  | skip (F : List Item) (b : NormalizedBook) (R : List Item) (hwants : (h.wanted.wants b.symbol).l4 = 0) :
    Moves h (F ++ .batch ⟨b, none⟩ :: R) (F ++ .batch ⟨b, some none⟩ :: R)
  | render (F : List Item) (m : FeedMessage) (b : NormalizedBook) (wants : Wants) (hwants : wants.l4 ≠ 0)
    (hstage : h.stage = .counted m false wants) (hb : venueBatch m = some b) :
    Moves h (F ++ .batch ⟨b, none⟩ :: h.upstream)
      (F ++ .batch ⟨b, some (renderL4 b (h.memory (marketOf b)) wants false)⟩ :: h.upstream)

theorem renderL4_of_unwanted {b : NormalizedBook} {market : MarketOrders} {wants : Wants} {idle : Bool}
    (hw : wants.l4 = 0) : renderL4 b market wants idle = none := if_pos (Or.inr hw)

namespace Hub

variable {h : Hub} {c : HlClient} {i : Nat}

/-- A new batch joins the end of every pipeline. -/
theorem publish_pipeline (harr : h.arriving = none) (m : FeedMessage) :
    (h.publish m).pipeline c = h.pipeline c ++ itemsOf m none := by
  unfold publish pipeline upstream
  rw [harr]
  simp

theorem append_moves (capacity : Nat) (c : HlClient) :
    Moves h (h.pipeline c) ((h.append capacity).pipeline c) := by
  unfold append
  cases harr : h.arriving with
  | none => exact .same _
  | some m =>
    rcases Receiver.send_cases capacity h.backbone m with hsend | hsend
    · have heq : ({ h with arriving := none, backbone := h.backbone.send capacity m }).pipeline c =
          h.pipeline c := by
        unfold pipeline upstream
        rw [hsend, harr]
        simp
      rw [heq]
      exact .same _
    · -- the head of the backbone is discarded, with the mark that may already stand before it
      have hold : h.pipeline c = (lostMark c.rx.missed ++ (c.rx.buf.flatMap Prepared.items ++ h.stage.items)) ++
          ((lostMark h.backbone.missed ++ h.backbone.buf.head?.toList.flatMap (itemsOf · none)) ++
            (h.backbone.buf.tail.flatMap (itemsOf · none) ++ itemsOf m none)) := by
        unfold pipeline upstream
        rw [harr]
        cases h.backbone.buf with
        | nil => simp
        | cons x buf => simp
      have hnew : ({ h with arriving := none, backbone := h.backbone.send capacity m }).pipeline c =
          (lostMark c.rx.missed ++ (c.rx.buf.flatMap Prepared.items ++ h.stage.items)) ++
            .lost :: (h.backbone.buf.tail.flatMap (itemsOf · none) ++ itemsOf m none) := by
        unfold pipeline upstream
        rw [hsend]
        simp [lostMark]
      rw [hold, hnew]
      exact .lose _ _ _

/-- A send reaches the client's queue from the stage, or costs it the head of its queue. -/
theorem send_moves (p : Prepared) (hstage : h.stage = .ready p) (h' : Hub) (hwait : h'.stage = .waiting)
    (hup : h'.upstream = h.upstream) (c : HlClient) :
    Moves h (h.pipeline c) (h'.pipeline { c with rx := c.rx.send PREPARED_CAPACITY p }) := by
  rcases Receiver.send_cases PREPARED_CAPACITY c.rx p with hsend | hsend
  · have heq : h'.pipeline { c with rx := c.rx.send PREPARED_CAPACITY p } = h.pipeline c := by
      unfold pipeline
      rw [hsend, hwait, hup, hstage]
      simp [Stage.items]
    rw [heq]
    exact .same _
  · have hold : h.pipeline c = [] ++
        ((lostMark c.rx.missed ++ c.rx.buf.head?.toList.flatMap Prepared.items) ++
          (c.rx.buf.tail.flatMap Prepared.items ++ (p.items ++ h.upstream))) := by
      unfold pipeline
      rw [hstage]
      cases c.rx.buf with
      | nil => simp [Stage.items]
      | cons x buf => simp [Stage.items]
    have hnew : h'.pipeline { c with rx := c.rx.send PREPARED_CAPACITY p } = [] ++
        .lost :: (c.rx.buf.tail.flatMap Prepared.items ++ (p.items ++ h.upstream)) := by
      unfold pipeline
      rw [hsend, hwait, hup]
      simp [lostMark, Stage.items]
    rw [hold, hnew]
    exact .lose _ _ _

/-- **What the stage does to a pipeline.** -/
theorem prepare_moves (iter : List BookKey) :
    ((h.prepare iter).clients = h.clients ∧ ∀ c, Moves h (h.pipeline c) ((h.prepare iter).pipeline c)) ∨
      ∃ p, h.stage = .ready p ∧ (h.prepare iter).stage = .waiting ∧ (h.prepare iter).upstream = h.upstream ∧
        (h.prepare iter).clients =
          h.clients.mapVals (fun c => { c with rx := c.rx.send PREPARED_CAPACITY p }) ∧
        ∀ c, Moves h (h.pipeline c) ((h.prepare iter).pipeline { c with rx := c.rx.send PREPARED_CAPACITY p }) := by
  unfold prepare
  cases hstage : h.stage with
  | waiting =>
    simp only
    rcases Receiver.recv_cases h.backbone with ⟨hmissed, heq⟩ | ⟨-, -, heq⟩ | ⟨m, buf, hmissed, hbuf, heq⟩
    · rw [heq]
      refine Or.inl ⟨rfl, fun c => ?_⟩
      have hsame : ({ h with backbone := ⟨h.backbone.buf, false⟩, stage := .gap }).pipeline c = h.pipeline c := by
        unfold pipeline upstream
        rw [hstage, hmissed]
        rfl
      simp only
      rw [hsame]
      exact .same _
    · rw [heq]
      exact Or.inl ⟨rfl, fun _ => .same _⟩
    · rw [heq]
      refine Or.inl ⟨rfl, fun c => ?_⟩
      have hsame : ({ h with backbone := ⟨buf, false⟩, stage := .took m (h.receiverCount = 0) }).pipeline c =
          h.pipeline c := by
        unfold pipeline upstream
        rw [hstage, hmissed, hbuf]
        simp [Stage.items, lostMark, receiverCount]
      simp only
      rw [hsame]
      exact .same _
  | took m idle =>
    refine Or.inl ⟨rfl, fun c => ?_⟩
    unfold pipeline
    simp only
    rw [hstage]
    cases idle with
    | true => exact .same _
    | false =>
      cases hb : venueBatch m with
      | none =>
        simp only [Stage.items, Bool.false_eq_true, if_false, itemsOf_none hb]
        exact .same _
      | some b =>
        simp only [Stage.items, Bool.false_eq_true, if_false, itemsOf_some hb, Option.elim_some, List.cons_append,
          List.nil_append]
        by_cases hw : (h.wanted.wants b.symbol).l4 = 0
        · simp only [hw, if_true]
          rw [← List.append_assoc, ← List.append_assoc]
          exact .skip _ b _ hw
        · simp only [hw, if_false]
          exact .same _
  | counted m idle wants =>
    refine Or.inl ⟨rfl, fun c => ?_⟩
    unfold pipeline
    simp only
    rw [hstage]
    cases idle with
    | true => exact .same _
    | false =>
      simp only [Stage.items, Bool.false_eq_true, if_false, Prepared.items]
      unfold prepareOne
      cases hb : venueBatch m with
      | none =>
        simp only [itemsOf_none hb]
        exact .same _
      | some b =>
        simp only [itemsOf_some hb, List.cons_append, List.nil_append]
        by_cases hw : wants.l4 = 0
        · rw [if_pos hw, renderL4_of_unwanted hw]
          exact .same _
        · rw [if_neg hw, ← List.append_assoc, ← List.append_assoc]
          exact .render _ m b wants hw hstage hb
  | gap =>
    refine Or.inl ⟨rfl, fun c => ?_⟩
    unfold pipeline
    simp only
    rw [hstage]
    exact .same _
  | ready p =>
    refine Or.inr ⟨p, rfl, rfl, rfl, rfl, send_moves p hstage _ ?_ ?_⟩
    · rfl
    · rfl

/-- What the stage does to a connected client. -/
theorem prepare_client (iter : List BookKey) {c' : HlClient}
    (hc' : (h.prepare iter).clients.get i = some c') :
    ∃ c, h.clients.get i = some c ∧ c' = { c with rx := c'.rx } ∧
      Moves h (h.pipeline c) ((h.prepare iter).pipeline c') := by
  rcases prepare_moves (h := h) iter with ⟨hclients, hmoves⟩ | ⟨p, -, -, -, hclients, hmoves⟩
  · rw [hclients] at hc'
    exact ⟨c', hc', rfl, hmoves c'⟩
  · rw [hclients] at hc'
    obtain ⟨c, hc, rfl⟩ := Option.map_eq_some_iff.mp hc'
    exact ⟨c, hc, rfl, hmoves c⟩

/-- A connection is refused, or a fresh client joins. -/
theorem connect_cases (h : Hub) : h.connect = h ∨
    h.connect = { h with clients := h.clients.insert h.nextId .fresh, nextId := h.nextId + 1 } := by
  unfold connect
  split
  · exact Or.inl rfl
  · exact Or.inr rfl

theorem pipeline_congr {c' : HlClient} (hrx : c'.rx = c.rx) : h.pipeline c' = h.pipeline c := by
  unfold pipeline
  rw [hrx]

/-- A client that is told of a loss has read its mark. -/
theorem pipeline_told (c' : HlClient) (hmissed : c.rx.missed = true) (hrx : c'.rx = ⟨c.rx.buf, false⟩) :
    h.pipeline c = .lost :: h.pipeline c' := by
  unfold pipeline
  rw [hrx, hmissed]
  rfl

theorem pipeline_read (c' : HlClient) {x : Prepared} {buf : List Prepared} (hmissed : c.rx.missed = false)
    (hbuf : c.rx.buf = x :: buf) (hrx : c'.rx = ⟨buf, false⟩) :
    h.pipeline c = x.items ++ h.pipeline c' := by
  unfold pipeline
  rw [hrx, hmissed, hbuf]
  simp [lostMark]

/-- A client's own turn moves no pipeline but its own. -/
theorem turn_pipeline {act : Wanted → HlClient → Wanted × Option HlClient} (c : HlClient) :
    (h.turn i act).pipeline c = h.pipeline c := by
  obtain ⟨-, harr, hback, hstage, -⟩ := turn_front (h := h) (i := i)
  unfold pipeline upstream
  rw [harr, hback, hstage]

end Hub

end Hl

end EdgeConnect
