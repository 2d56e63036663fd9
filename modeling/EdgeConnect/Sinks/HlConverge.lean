import EdgeConnect.Sinks.HlHistory

/-!
# Convergence of the `l4Book` channel

One coin carried by one market; the arbiter, the stage and any number of clients in any order.

* `Step.InDomain` — the runs in question; `Step.Renderable` — regular batches, and no bootstrap over a queue in
  which an order was overtaken;
* `Tracks`, `Follows` — what a run keeps of every client, and of a subscriber;
* `subscriber_converges` — a subscriber that has read everything holds the accumulator's orders;
* `resubscriber_keeps_a_removed_order` — a queued frame survives the removal of its order, when that came while
  nobody wanted the coin.
-/

set_option autoImplicit false

namespace EdgeConnect

namespace Hl

open Ws (BookSnapshot FeedMessage marketOf publishBook)

open LastWrite (write play replay Overtaken Settled)

/-! ## The runs in question -/

/-- The steps of a run in which one market carries the coin. -/
def Step.InDomain (coin : String) (k : BookKey) (h : Hub) : Step → Prop
  | .publish m => CarriedBy coin k h m
  | .stage iter | .control _ _ iter | .advance _ iter => Iterates h iter
  | _ => True

/-- Batches of the market are regular, and when a client reads the bootstrap of the coin no order is overtaken
in what it has still to read: changed by a rendered batch, and then for the last time by one that the stage did
not render. -/
def Step.Renderable (coin : String) (k : BookKey) (h : Hub) : Step → Prop
  | .publish m => ∀ b, m.batch = some b → marketOf b = k → Regular b
  | .advance i _ => ∀ c, h.clients.get i = some c → c.phase = .bootstrapping (.l4Book coin) →
    ∀ oid, ¬ Overtaken Passing.effect Passing.kept (liveOf k (h.pipeline c)) oid
  | _ => True

section Market

variable {coin : String} {k : BookKey} {H : List NormalizedBook} {P P' : List Item} {h : Hub}

/-! ## A client's map -/

/-- Some batch of the market rests the order. -/
def Rested (H : List NormalizedBook) (oid : Nat) : Prop := ∃ b ∈ H, ∃ v, effect b.changes oid = some (some v)

theorem rested_of_play {oid : Nat} (hne : play batchEffect (fun _ => none) H oid ≠ none) : Rested H oid := by
  rcases LastWrite.exists_last_write batchEffect oid H with hnone | ⟨pre, b, post, rfl, hb, hpost⟩
  · exact absurd (LastWrite.play_eq_of_untouched hnone) hne
  · obtain ⟨w, hw⟩ := Option.ne_none_iff_exists'.mp hb
    have hplay : play batchEffect (fun _ => none) (pre ++ b :: post) oid = w := by
      rw [LastWrite.play_append]
      show play batchEffect (write batchEffect b _) post oid = w
      rw [LastWrite.play_eq_of_untouched hpost]
      exact LastWrite.write_of_some hw
    rw [hplay] at hne
    obtain ⟨v, rfl⟩ := Option.ne_none_iff_exists'.mp hne
    exact ⟨b, List.mem_append_right pre List.mem_cons_self, v, hw⟩

theorem not_rested (hH : ∀ b ∈ H, b.changes.any namesOrder = false) (oid : Nat) : ¬ Rested H oid := by
  rintro ⟨b, hb, v, hv⟩
  obtain ⟨c, hc, hnames⟩ := namesOrder_of_effect hv
  have := List.any_eq_false.mp (hH b hb) c hc
  exact this hnames

/-- What a pipeline owes a subscriber: what it has still to read leaves the market's orders as they are, and
leads its own map to them, unless a loss or a re-bootstrap is still ahead. -/
structure Follows (k : BookKey) (G : Nat → Option (F64 × F64)) (full : Prop) (P : List Item) (u : OrderMap)
    (owed : Prop) : Prop where
  settled : Settled Passing.effect Passing.kept G (liveOf k P)
  current : .lost ∈ P ∨ owed ∨ (full → replay Passing.effect Passing.kept u.get (liveOf k P) = G)

/-- The market may be published as full state. -/
def Published (h : Hub) (k : BookKey) (coin : String) : Prop :=
  ∃ acc, h.books.get k = some acc ∧ publishable k acc coin = true

section Follows

variable {G : Nat → Option (F64 × F64)} {full owed : Prop} {u : OrderMap}

theorem Follows.lose {F X R : List Item} (hf : Follows k G full (F ++ (X ++ R)) u owed) :
    Follows k G full (F ++ .lost :: R) u owed := by
  refine ⟨?_, Or.inl (List.mem_append_right _ List.mem_cons_self)⟩
  rw [liveOf_append_of_lost List.mem_cons_self]
  exact hf.settled.suffix ((liveOf_suffix k X R).trans (liveOf_suffix k F (X ++ R)))

/-- Exchanging a batch on its way for itself, rendered or not, as long as the rest makes up for it. -/
theorem Follows.settle {F R : List Item} {q q' : Passing} (hbatch : q'.batch = q.batch)
    (hf : Follows k G full (F ++ .batch q :: R) u owed)
    (hsame : .lost ∉ R → marketOf q.batch = k → ∀ v, (v = G ∨ v = u.get) → ∀ A, A <:+ liveOf k F →
      replay Passing.effect Passing.kept v (A ++ q' :: liveOf k R) =
        replay Passing.effect Passing.kept v (A ++ q :: liveOf k R)) :
    Follows k G full (F ++ .batch q' :: R) u owed := by
  have hlost' : ∀ x : Passing, .lost ∉ R → Item.lost ∉ Item.batch x :: R := by
    intro x hlost hx
    rcases List.mem_cons.mp hx with hx | hx
    · cases hx
    · exact hlost hx
  have hcurrent : .lost ∈ F ++ .batch q' :: R ↔ .lost ∈ F ++ .batch q :: R := by
    simp [List.mem_append, List.mem_cons]
  obtain ⟨hsettled, hcur⟩ := hf
  rw [← hcurrent] at hcur
  by_cases hlost : .lost ∈ R
  · have hlive : ∀ x : Passing, liveOf k (F ++ .batch x :: R) = liveOf k R := by
      intro x
      rw [liveOf_append_of_lost (List.mem_cons_of_mem _ hlost), show Item.batch x :: R = [.batch x] ++ R from rfl,
        liveOf_append_of_lost hlost]
    rw [hlive q] at hsettled hcur
    exact ⟨hlive q' ▸ hsettled, hlive q' ▸ hcur⟩
  · have hlive : ∀ x : Passing, liveOf k (F ++ .batch x :: R) =
        liveOf k F ++ if marketOf x.batch = k then x :: liveOf k R else liveOf k R := by
      intro x
      rw [liveOf_append_of_kept (hlost' x hlost), liveOf_batch hlost]
    rw [hlive q] at hsettled hcur
    by_cases hk : marketOf q.batch = k
    · rw [if_pos hk] at hsettled hcur
      refine ⟨?_, ?_⟩
      · rw [hlive q', hbatch, if_pos hk]
        exact hsettled.replace fun A hA => hsame hlost hk G (Or.inl rfl) A hA
      · rw [hlive q', hbatch, if_pos hk, hsame hlost hk u.get (Or.inr rfl) _ (List.suffix_refl _)]
        exact hcur
    · rw [if_neg hk] at hsettled hcur
      refine ⟨?_, ?_⟩
      · rw [hlive q', hbatch, if_neg hk]
        exact hsettled
      · rw [hlive q', hbatch, if_neg hk]
        exact hcur

end Follows

theorem kept_upstream {q : Passing} (hq : .batch q ∈ h.upstream) : q.kept = true := by
  have hitems : ∀ ms : List FeedMessage, Item.batch q ∈ ms.flatMap (itemsOf · none) → q.kept = true := by
    intro ms hmem
    obtain ⟨m, -, hm⟩ := List.mem_flatMap.mp hmem
    obtain ⟨b, -, he⟩ := List.mem_map.mp hm
    rw [← Item.batch.inj he]
    rfl
  unfold Hub.upstream at hq
  rcases List.mem_append.mp hq with hq | hq
  · unfold lostMark at hq
    split at hq
    · simp at hq
    · cases hq
  · rcases List.mem_append.mp hq with hq | hq
    · exact hitems _ hq
    · exact hitems _ hq

/-- A batch of the market that is rendered, or found to have nothing to render, makes no difference to what the
pipeline leads to. -/
theorem render_same {F : List Item} {m : FeedMessage} {b : NormalizedBook} {wants : Wants}
    (hl : Ledger coin k H h) (hmem : Memory k H h) (hstage : h.stage = .counted m false wants)
    (hb : venueBatch m = some b) (hw : wants.l4 ≠ 0)
    (hc : Carrying coin k H (F ++ .batch ⟨b, none⟩ :: h.upstream)) (hlost : .lost ∉ h.upstream)
    (hk : marketOf b = k) {v : Nat → Option (F64 × F64)} (hv : ∀ oid, v oid ≠ none → Rested H oid)
    {A : List Passing} (hA : A <:+ liveOf k F) :
    replay Passing.effect Passing.kept v
        (A ++ ⟨b, some (renderL4 b (h.memory (marketOf b)) wants false)⟩ :: liveOf k h.upstream) =
      replay Passing.effect Passing.kept v (A ++ ⟨b, none⟩ :: liveOf k h.upstream) := by
  have hkept : Passing.kept ⟨b, none⟩ = true := rfl
  have hbH : b ∈ H := hc.history ⟨b, none⟩ (List.mem_append_right F List.mem_cons_self) hk
  rw [LastWrite.replay_append, LastWrite.replay_append, LastWrite.replay_cons_of_kept hkept]
  cases hr : renderL4 b (h.memory (marketOf b)) wants false with
  | some f =>
    rw [LastWrite.replay_cons_of_kept rfl]
    rfl
  | none =>
    rw [LastWrite.replay_cons_of_not_kept rfl]
    rcases renderL4_none (hl.regular b hbH) hw hr with hnone | ⟨hreb, hflag⟩
    · congr 1
      funext oid
      exact (LastWrite.write_of_none (hnone oid)).symm
    · -- the stage knows of no order: none was named up to this batch
      rw [hk, orderLevel_apply, Bool.or_eq_false_iff] at hflag
      have hmissed : h.backbone.missed = false := by
        by_contra hne
        refine hlost ?_
        unfold Hub.upstream lostMark
        rw [if_pos (by simpa using hne)]
        exact List.mem_cons_self
      obtain ⟨done, hdone, hnone⟩ := hmem hmissed (hstage ▸ nofun)
      have hlive : (liveOf k h.upstream).map Passing.batch =
          (h.backbone.buf ++ h.arriving.toList).flatMap (newBatches k) := by
        rw [← (liveOf_itemsOf k _).2]
        unfold Hub.upstream
        rw [hmissed, List.flatMap_append]
        rfl
      have htodo : todo k h = b :: (liveOf k h.upstream).map Passing.batch := by
        rw [hlive]
        unfold todo
        rw [hstage]
        show newBatches k m ++ _ = _
        rw [newBatches_of_some hb, if_pos hk]
        rfl
      rw [htodo] at hdone
      have hprev := Memory.no_orders hl (fun x hx => hdone ▸ List.mem_append_left _ hx) hnone hflag.1
      have hAdone : ∀ q ∈ A, q.batch ∈ done := by
        have hlost' : Item.lost ∉ Item.batch ⟨b, none⟩ :: h.upstream := by
          intro hx
          rcases List.mem_cons.mp hx with hx | hx
          · cases hx
          · exact hlost hx
        obtain ⟨front, hfront⟩ := hc.recent
        rw [liveOf_append_of_kept hlost', liveOf_batch hlost, if_pos hk, List.map_append, List.map_cons, hdone,
          ← List.append_assoc] at hfront
        intro q hq
        rw [← List.append_cancel_right hfront]
        exact List.mem_append_right front (List.mem_map.mpr ⟨q, hA.subset hq, rfl⟩)
      funext oid
      by_cases htouch : ∃ q ∈ liveOf k h.upstream, q.kept = true ∧ q.effect oid ≠ none
      · exact LastWrite.replay_eq_of_touched htouch
      · refine LastWrite.replay_congr ?_
        have hbnone : effect b.changes oid = some none :=
          (effect_of_no_orders oid fun c hc => by
            simpa using List.any_eq_false.mp hflag.2 c hc).resolve_left (effect_of_rebaseline hreb)
        have hwrite : write Passing.effect ⟨b, none⟩ (replay Passing.effect Passing.kept v A) oid = none :=
          LastWrite.write_of_some hbnone
        rw [hwrite]
        refine LastWrite.replay_eq_none ?_ ?_
        · by_contra hne
          obtain ⟨b', hb', w, hw'⟩ := hv oid hne
          rw [hdone] at hb'
          rcases List.mem_append.mp hb' with hb' | hb'
          · exact not_rested hprev oid ⟨b', hb', w, hw'⟩
          · rcases List.mem_cons.mp hb' with rfl | hb'
            · rw [hbnone] at hw'
              cases hw'
            · obtain ⟨q, hq, rfl⟩ := List.mem_map.mp hb'
              refine htouch ⟨q, hq, kept_upstream (mem_of_mem_live (List.mem_filter.mp hq).1), ?_⟩
              show effect q.batch.changes oid ≠ none
              rw [hw']
              exact nofun
        · intro q hq
          refine effect_of_no_orders oid fun c hc => ?_
          simpa using List.any_eq_false.mp (hprev q.batch (hAdone q hq)) c hc

/-! ## What a client is given -/

theorem orderMap_append (coin : String) (wire frames : List Wire) :
    orderMap coin (wire ++ frames) = frames.foldl (Wire.apply coin) (orderMap coin wire) := List.foldl_append

/-- Frames of other coins leave a coin's map alone. -/
theorem orderMap_of_other {wire frames : List Wire} (hother : ∀ f, .l4Book f ∈ frames → f.coin ≠ coin) :
    orderMap coin (wire ++ frames) = orderMap coin wire := by
  rw [orderMap_append]
  generalize orderMap coin wire = u
  induction frames with
  | nil => rfl
  | cons x frames ih =>
    have hx : Wire.apply coin u x = u := by
      cases x with
      | l4Book f => exact if_neg (hother f List.mem_cons_self)
      | subscribed | unsubscribed | pong | error | close => rfl
    rw [List.foldl_cons, hx]
    exact ih fun f hf => hother f (List.mem_cons_of_mem x hf)

/-- A scan that only one key answers is that key's answer. -/
theorem filterMap_unique {α β : Type} [DecidableEq α] (f : α → Option β) (a : α) : ∀ l : List α, l.Nodup →
    (∀ x ∈ l, x ≠ a → f x = none) → (f a ≠ none → a ∈ l) → l.filterMap f = (f a).toList
  | [], _, _, hmem => by
    cases hf : f a with
    | none => rfl
    | some v => exact absurd (hmem (hf ▸ nofun)) List.not_mem_nil
  | x :: l, hnodup, hother, hmem => by
    have hl := List.nodup_cons.mp hnodup
    by_cases hx : x = a
    · subst hx
      have hrest : l.filterMap f = [] := by
        rw [List.filterMap_eq_nil_iff]
        intro y hy
        exact hother y (List.mem_cons_of_mem x hy) fun he => hl.1 (he ▸ hy)
      rw [List.filterMap_cons, hrest]
      cases f x with
      | none => rfl
      | some v => rfl
    · rw [List.filterMap_cons, hother x List.mem_cons_self hx]
      refine filterMap_unique f a l hl.2 (fun y hy => hother y (List.mem_cons_of_mem x hy)) fun hf => ?_
      exact (List.mem_cons.mp (hmem hf)).resolve_left (Ne.symm hx)

/-- The snapshot of the one market a coin has is the whole bootstrap of the coin. -/
theorem bootstrap_eq (halone : ∀ key acc, h.books.get key = some acc → publishable key acc coin = true → key = k)
    {iter : List BookKey} (hiter : Iterates h iter) {pin : Option BookKey} (hpin : ∀ key, pin = some key → key = k) :
    bootstrap h.books iter (.l4Book coin) pin =
      (takeMarket h.books k coin).toList.map fun acc =>
        ⟨coin, k, renderL4bookSnapshot (acc.toBook k 0)⟩ := by
  unfold bootstrap
  cases pin with
  | some key =>
    obtain rfl := hpin key rfl
    simp only
    cases takeMarket h.books key coin with
    | none => rfl
    | some acc => rfl
  | none =>
    have hscan : takeMarkets h.books iter coin =
        ((takeMarket h.books k coin).map fun acc => (k, acc)).toList := by
      refine filterMap_unique (fun key => (takeMarket h.books key coin).map fun acc => (key, acc)) k iter hiter.1
        ?_ ?_
      · intro key _ hne
        rw [Option.map_eq_none_iff]
        unfold takeMarket
        rw [Option.filter_eq_none_iff]
        exact fun acc hacc hpub => hne (halone key acc hacc hpub)
      · intro hne
        obtain ⟨acc, hacc⟩ := Option.ne_none_iff_exists'.mp fun hnone => hne (Option.map_eq_none_iff.mpr hnone)
        exact hiter.2 k (FinMap.contains_eq_true.mpr ⟨acc, (Option.filter_eq_some_iff.mp hacc).1⟩)
    simp only
    rw [hscan]
    cases takeMarket h.books k coin with
    | none => rfl
    | some acc => rfl

theorem effect_zero (cs : List BookChange) : effect cs 0 = none ∨ effect cs 0 = some none := by
  induction cs with
  | nil => exact Or.inl rfl
  | cons c cs ih =>
    unfold effect
    rcases ih with hcs | hcs
    · rw [hcs]
      show changeEffect c 0 = none ∨ changeEffect c 0 = some none
      by_cases hclear : c.action = .clear
      · exact Or.inr (if_pos hclear)
      · exact Or.inl (changeEffect_of_other hclear (Classical.em _))
    · rw [hcs]
      exact Or.inr rfl

/-- No order has the id that stands for none. -/
theorem Ledger.order_zero (hl : Ledger coin k H h) {acc : BookAccumulator} (hacc : h.books.get k = some acc) :
    acc.orders.get 0 = none := by
  have hq := congrFun hl.quotes 0
  unfold Hl.quotes at hq
  rw [hacc, Option.elim_some] at hq
  have hnone : play batchEffect (fun _ => none) H 0 = none := by
    by_contra hne
    obtain ⟨b, -, v, hv⟩ := rested_of_play hne
    rcases effect_zero b.changes with he | he
    · rw [he] at hv
      cases hv
    · rw [he] at hv
      cases hv
  rw [hnone] at hq
  exact Option.map_eq_none_iff.mp hq

/-- **A bootstrap of the coin is the market's orders, when they may be published, and nothing otherwise.** -/
theorem orderMap_bootstrap (hl : Ledger coin k H h) {iter : List BookKey} (hiter : Iterates h iter)
    {pin : Option BookKey} (hpin : ∀ key, pin = some key → key = k) (wire : List Wire) :
    (Published h k coin ∧ (orderMap coin
        (wire ++ (bootstrap h.books iter (.l4Book coin) pin).map .l4Book)).get = quotes h k) ∨
      (¬ Published h k coin ∧ orderMap coin
        (wire ++ (bootstrap h.books iter (.l4Book coin) pin).map .l4Book) = orderMap coin wire) := by
  have halone : ∀ key acc, h.books.get key = some acc → publishable key acc coin = true → key = k :=
    fun key acc hacc hpub => hl.alone key acc hacc (of_decide_eq_true hpub).1 (of_decide_eq_true hpub).2.1
  rw [bootstrap_eq halone hiter hpin]
  cases htake : takeMarket h.books k coin with
  | none =>
    right
    refine ⟨?_, by rw [Option.toList_none, List.map_nil, List.map_nil, List.append_nil]⟩
    rintro ⟨acc, hacc, hpub⟩
    unfold takeMarket at htake
    rw [hacc, Option.filter_some, if_pos hpub] at htake
    cases htake
  | some acc =>
    left
    obtain ⟨hacc, hpub⟩ := Option.filter_eq_some_iff.mp htake
    refine ⟨⟨acc, hacc, hpub⟩, ?_⟩
    rw [orderMap_append]
    show (if coin = coin then (renderL4bookSnapshot (acc.toBook k 0)).apply _ else _).get = _
    rw [if_pos rfl, bootstrap_orders acc k (hl.order_zero hacc)]
    unfold quotes
    rw [hacc]
    rfl

theorem bootstrap_coin {books : BookSnapshot} {iter : List BookKey} {sub : Sub} {pin : Option BookKey}
    {f : L4Frame} (hf : f ∈ bootstrap books iter sub pin) : sub = .l4Book f.coin := by
  unfold bootstrap at hf
  split at hf
  · obtain ⟨e, -, rfl⟩ := List.mem_map.mp hf
    rfl
  · cases hf

/-! ## What holds of every client -/

/-- What a client has still to read is carried by the market, its map has no order the market never had, and
it has the coin under no other market. -/
structure Tracks (coin : String) (k : BookKey) (H : List NormalizedBook) (h : Hub) (c : HlClient) : Prop where
  carrying : Carrying coin k H (h.pipeline c)
  rested : ∀ oid, (orderMap coin c.wire).get oid ≠ none → Rested H oid
  pinned : ∀ key, c.pinned.get coin = some key → key = k

/-- The coin is among the subscriptions the client is still to re-bootstrap. -/
def HlClient.Owed (c : HlClient) (coin : String) : Prop :=
  ∃ left, c.phase = .rebootstrapping left ∧ .l4Book coin ∈ left

/-- A subscriber follows the market. -/
def HlClient.Follows (coin : String) (k : BookKey) (h : Hub) (c : HlClient) : Prop :=
  Hl.Follows k (quotes h k) (Published h k coin) (h.pipeline c) (orderMap coin c.wire) (c.Owed coin)

theorem Rested.mono {H' : List NormalizedBook} {oid : Nat} (hr : Rested H oid) : Rested (H ++ H') oid := by
  obtain ⟨b, hb, hv⟩ := hr
  exact ⟨b, List.mem_append_left H' hb, hv⟩

theorem Ledger.rested_quotes (hl : Ledger coin k H h) (oid : Nat) (hne : Hl.quotes h k oid ≠ none) :
    Rested H oid := by
  rw [hl.quotes] at hne
  exact rested_of_play hne

/-- A client keeps following through what the arbiter's broadcast and the stage do to its pipeline. -/
theorem HlClient.Follows.moves {h' : Hub} {c c' : HlClient} (hf : c.Follows coin k h)
    (ht : Tracks coin k H h c) (hl : Ledger coin k H h) (hmem : Memory k H h)
    (hwant : (h.wanted.wants coin).l4 ≠ 0) (hm : Moves h (h.pipeline c) (h'.pipeline c'))
    (hbooks : h'.books = h.books) (hc' : c' = { c with rx := c'.rx }) : c'.Follows coin k h' := by
  have hwire : c'.wire = c.wire := by rw [hc']
  have hphase : c'.phase = c.phase := by rw [hc']
  have hquotes : quotes h' k = quotes h k := by
    unfold quotes
    rw [hbooks]
  have hpub : Published h' k coin = Published h k coin := by
    unfold Published
    rw [hbooks]
  have howed : c'.Owed coin = c.Owed coin := by
    unfold Owed
    rw [hphase]
  unfold HlClient.Follows at hf ⊢
  rw [hquotes, hpub, howed, hwire]
  have hcarry := ht.carrying
  generalize h.pipeline c = P at hm hf hcarry
  generalize h'.pipeline c' = P' at hm ⊢
  cases hm with
  | same => exact hf
  | lose F X R => exact hf.lose
  | skip F b R hw =>
    have hne : marketOf b ≠ k := by
      intro hk
      rw [(hcarry.market ⟨b, none⟩ (List.mem_append_right F List.mem_cons_self)).mp hk] at hw
      exact hwant hw
    refine Hl.Follows.settle ?_ hf fun _ hk => absurd hk hne
    rfl
  | render F m b wants hw hstage hb =>
    refine Hl.Follows.settle ?_ hf fun hlost hk v hv A hA => ?_
    · rfl
    refine render_same hl hmem hstage hb hw hcarry hlost hk (fun oid hne => ?_) hA
    rcases hv with rfl | rfl
    · exact hl.rested_quotes oid hne
    · exact ht.rested oid hne

theorem quotes_publish (hl : Ledger coin k H h) {m : FeedMessage} (hm : CarriedBy coin k h m)
    (hreg : ∀ b, m.batch = some b → marketOf b = k → Regular b) (harr : h.arriving = none) :
    quotes (h.publish m) k = play batchEffect (quotes h k) (newBatches k m) := by
  rw [(hl.publish hm hreg harr).quotes, LastWrite.play_append, hl.quotes]

/-- A book that a batch without a clear makes publishable had no order before. -/
theorem not_rested_of_opened (hl : Ledger coin k H h) {b : NormalizedBook} (hm : CarriedBy coin k h (.book b))
    (hb : Regular b) (hk : marketOf b = k) (harr : h.arriving = none) (hreb : rebaseline b = false)
    (hold : ¬ Published h k coin) (hnew : Published (h.publish (.book b)) k coin) (oid : Nat) :
    ¬ Rested H oid := by
  have hfits := hm.fits b rfl hk
  obtain ⟨acc', hacc', hpub⟩ := hnew
  have hbooks : (h.publish (.book b)).books = publishBook h.books b := by
    unfold Hub.publish
    rw [harr]
    rfl
  rw [hbooks, get_publishBook, hk, if_pos rfl] at hacc'
  obtain ⟨-, hsym, -, hbase, -⟩ := apply_regular hb hfits.last (hl.pending b.symbol) hfits.room
  have hclears : clearedSides b.changes ≠ (true, true) := by
    intro hcl
    have hany := congrArg Prod.fst hcl
    obtain ⟨c, hc, hclear⟩ := List.any_eq_true.mp hany
    unfold BookChange.clears at hclear
    rw [decide_eq_true_iff] at hclear
    exact hb.incremental hreb c hc hclear.1
  rw [← Option.some.inj hacc'] at hpub
  unfold publishable at hpub
  rw [decide_eq_true_iff, hbase, decide_eq_false hclears, Bool.or_false, hsym] at hpub
  cases hacc : h.books.get k with
  | none =>
    rw [hacc] at hpub
    exact absurd hpub.2.2.1 Bool.false_ne_true
  | some acc =>
    rw [hacc] at hpub
    obtain ⟨-, hsym', hlevel⟩ := hl.entry acc hacc
    refine not_rested (hlevel ?_) oid
    by_contra hne
    refine hold ⟨acc, hacc, ?_⟩
    unfold publishable
    rw [decide_eq_true_iff]
    exact ⟨hpub.1, hsym', hpub.2.2.1, by simpa using hne⟩

/-- A subscriber keeps following when a message is published. -/
theorem HlClient.Follows.publish {c : HlClient} (hf : c.Follows coin k h) (ht : Tracks coin k H h c)
    (hl : Ledger coin k H h) {m : FeedMessage} (hm : CarriedBy coin k h m)
    (hreg : ∀ b, m.batch = some b → marketOf b = k → Regular b) (harr : h.arriving = none) :
    c.Follows coin k (h.publish m) := by
  have hquotes := quotes_publish hl hm hreg harr
  unfold HlClient.Follows at hf ⊢
  rw [hquotes, Hub.publish_pipeline harr]
  have hlost : .lost ∈ h.pipeline c ++ itemsOf m none ↔ .lost ∈ h.pipeline c := by
    rw [List.mem_append]
    exact ⟨fun hx => hx.resolve_right lost_notMem_itemsOf, Or.inl⟩
  rcases hm.cases with ⟨hnew, hother⟩ | ⟨b, rfl, hv, hk, hsym, hnew⟩
  · have hget : (h.publish m).books.get k = h.books.get k := by
      unfold Hub.publish
      rw [harr]
      show (m.batch.elim h.books (publishBook h.books)).get k = _
      cases hb : m.batch with
      | none => rfl
      | some b => rw [Option.elim_some, get_publishBook, if_neg (Ne.symm (hother b hb))]
    have hlive : liveOf k (h.pipeline c ++ itemsOf m none) = liveOf k (h.pipeline c) := by
      rw [liveOf_append_of_kept lost_notMem_itemsOf]
      have hnil := (liveOf_itemsOf k [m]).2
      rw [List.flatMap_singleton, List.flatMap_singleton, hnew, List.map_eq_nil_iff] at hnil
      rw [hnil, List.append_nil]
    have hpub : Published (h.publish m) k coin = Published h k coin := by
      unfold Published
      rw [hget]
    rw [hnew, hpub]
    refine ⟨?_, ?_⟩
    · rw [hlive]
      exact hf.settled
    · rw [hlive, hlost]
      exact hf.current
  · have hb := hreg b rfl hk
    have hkept : Passing.kept ⟨b, none⟩ = true := rfl
    have hlive : liveOf k (h.pipeline c ++ itemsOf (.book b) none) = liveOf k (h.pipeline c) ++ [⟨b, none⟩] := by
      rw [liveOf_append_of_kept lost_notMem_itemsOf, itemsOf_some hv, liveOf_batch List.not_mem_nil, if_pos hk]
      rfl
    rw [hnew]
    refine ⟨?_, ?_⟩
    · rw [hlive]
      exact hf.settled.snoc hkept
    · rw [hlive, hlost]
      rcases hf.current with hl' | howed | hcur
      · exact Or.inl hl'
      · exact Or.inr (Or.inl howed)
      · refine Or.inr (Or.inr fun hpub' => ?_)
        rw [LastWrite.replay_snoc hkept]
        by_cases hpub : Published h k coin
        · rw [hcur hpub]
          rfl
        · funext oid
          show (effect b.changes oid).getD _ = (effect b.changes oid).getD (quotes h k oid)
          cases he : effect b.changes oid with
          | some w => rfl
          | none =>
            -- the batch has no clear, so what it makes publishable had no order before
            have hreb : rebaseline b = false := by
              by_contra hne
              exact effect_of_rebaseline (by simpa using hne) he
            have hnone := not_rested_of_opened hl hm hb hk harr hreb hpub hpub' oid
            have hG : quotes h k oid = none := by
              by_contra hne
              exact hnone (hl.rested_quotes oid hne)
            rw [hG]
            refine LastWrite.replay_eq_none ?_ ?_
            · by_contra hne
              exact hnone (ht.rested oid hne)
            · intro q hq
              have hqH : q.batch ∈ H := by
                obtain ⟨hmem, hkq⟩ := List.mem_filter.mp hq
                exact ht.carrying.history q (mem_of_mem_live hmem) (of_decide_eq_true hkq)
              show effect q.batch.changes oid = none ∨ effect q.batch.changes oid = some none
              cases heq : effect q.batch.changes oid with
              | none => exact Or.inl rfl
              | some w =>
                cases w with
                | none => exact Or.inr rfl
                | some v => exact absurd ⟨q.batch, hqH, v, heq⟩ hnone

/-! ## A client's own steps -/

/-- What is carried and followed depends on the hub through its books and what it has on the way. -/
theorem Tracks.congr {h' : Hub} {c c' : HlClient} (ht : Tracks coin k H h c)
    (hP : h'.pipeline c' = h.pipeline c) (hmap : orderMap coin c'.wire = orderMap coin c.wire)
    (hpinned : ∀ key, c'.pinned.get coin = some key → key = k) : Tracks coin k H h' c' := by
  refine ⟨?_, ?_, hpinned⟩
  · rw [hP]
    exact ht.carrying
  · rw [hmap]
    exact ht.rested

theorem HlClient.Follows.congr {h' : Hub} {c c' : HlClient} (hf : c.Follows coin k h)
    (hbooks : h'.books = h.books) (hP : h'.pipeline c' = h.pipeline c)
    (hmap : orderMap coin c'.wire = orderMap coin c.wire) (howed : c.Owed coin → c'.Owed coin) :
    c'.Follows coin k h' := by
  have hquotes : quotes h' k = quotes h k := by
    unfold quotes
    rw [hbooks]
  have hpub : Published h' k coin = Published h k coin := by
    unfold Published
    rw [hbooks]
  unfold HlClient.Follows at hf ⊢
  rw [hquotes, hpub, hP, hmap]
  exact ⟨hf.settled, hf.current.imp_right (Or.imp_left howed)⟩

theorem not_owed {c : HlClient} (hp : ∀ left, c.phase ≠ .rebootstrapping left) : ¬ c.Owed coin := by
  rintro ⟨left, hleft, -⟩
  exact hp left hleft

/-- The market that a coin resolves to is the one that carries it. -/
theorem market_of_resolved (hl : Ledger coin k H h) {iter : List BookKey} {key : BookKey}
    (hkey : marketsFor h.books iter coin = [key]) : key = k := by
  have hmem : key ∈ marketsFor h.books iter coin := by
    rw [hkey]
    exact List.mem_singleton_self key
  obtain ⟨e, he, rfl⟩ := List.mem_map.mp hmem
  obtain ⟨x, -, hx⟩ := List.mem_filterMap.mp he
  obtain ⟨acc, hacc, rfl⟩ := Option.map_eq_some_iff.mp hx
  obtain ⟨hget, hpub⟩ := Option.filter_eq_some_iff.mp hacc
  unfold publishable at hpub
  rw [decide_eq_true_iff] at hpub
  exact hl.alone x acc hget hpub.1 hpub.2.1

theorem Tracks.control {c : HlClient} {w : Wanted} (ht : Tracks coin k H h c) (hl : Ledger coin k H h)
    (iter : List BookKey) (request : Control) :
    Tracks coin k H h (c.control h.books iter w request).2 := by
  obtain ⟨frames, hwire, hframes⟩ := HlClient.control_wire (w := w) (c := c) h.books iter request
  refine ht.congr (Hub.pipeline_congr (HlClient.rx_control h.books iter request)) ?_ fun key hkey => ?_
  · rw [hwire]
    exact orderMap_of_other fun f hf => absurd hf (hframes f)
  · rcases HlClient.control_pinned hkey with hkey | hkey
    · exact ht.pinned key hkey
    · exact market_of_resolved hl hkey

theorem HlClient.Follows.control {c : HlClient} {w : Wanted} (hf : c.Follows coin k h) (hp : c.phase = .ready)
    (iter : List BookKey) (request : Control) : (c.control h.books iter w request).2.Follows coin k h := by
  obtain ⟨frames, hwire, hframes⟩ := HlClient.control_wire (w := w) (c := c) h.books iter request
  refine hf.congr rfl (Hub.pipeline_congr (HlClient.rx_control h.books iter request)) ?_ fun howed => ?_
  · rw [hwire]
    exact orderMap_of_other fun f hf => absurd hf (hframes f)
  · exact absurd howed (not_owed (hp ▸ nofun))

/-- A bootstrap leaves the client with orders the market had. -/
theorem Tracks.bootstrap {c c' : HlClient} (ht : Tracks coin k H h c) (hl : Ledger coin k H h)
    {iter : List BookKey} (hiter : Iterates h iter) {sub : Sub} (hrx : c'.rx = c.rx) (hpins : c'.pinned = c.pinned)
    (hwire : c'.wire = c.wire ++ (bootstrap h.books iter sub (c.pin sub)).map .l4Book) :
    Tracks coin k H h c' := by
  by_cases hsub : sub = .l4Book coin
  · subst hsub
    have hpin : ∀ key, c.pin (.l4Book coin) = some key → key = k := ht.pinned
    refine ⟨?_, fun oid hne => ?_, hpins ▸ ht.pinned⟩
    · rw [Hub.pipeline_congr hrx]
      exact ht.carrying
    · rw [hwire] at hne
      rcases orderMap_bootstrap hl hiter hpin c.wire with ⟨-, hmap⟩ | ⟨-, hmap⟩
      · rw [hmap] at hne
        exact hl.rested_quotes oid hne
      · rw [hmap] at hne
        exact ht.rested oid hne
  · refine ht.congr (Hub.pipeline_congr hrx) ?_ (hpins ▸ ht.pinned)
    rw [hwire]
    refine orderMap_of_other fun f hf => ?_
    obtain ⟨f', hf', he⟩ := List.mem_map.mp hf
    rw [← Wire.l4Book.inj he]
    exact fun hcoin => hsub (hcoin ▸ bootstrap_coin hf')

/-- A bootstrap of the coin puts a client whose queue leaves the market alone on its track. -/
theorem HlClient.Follows.of_bootstrap {c c' : HlClient} (ht : Tracks coin k H h c) (hl : Ledger coin k H h)
    {iter : List BookKey} (hiter : Iterates h iter) (hrx : c'.rx = c.rx)
    (hwire : c'.wire = c.wire ++ (Hl.bootstrap h.books iter (.l4Book coin) (c.pin (.l4Book coin))).map .l4Book)
    (hsettled : Settled Passing.effect Passing.kept (quotes h k) (liveOf k (h.pipeline c))) :
    c'.Follows coin k h := by
  have hpin : ∀ key, c.pin (.l4Book coin) = some key → key = k := ht.pinned
  unfold HlClient.Follows
  rw [Hub.pipeline_congr hrx]
  refine ⟨hsettled, Or.inr (Or.inr fun hpub => ?_)⟩
  rw [hwire]
  rcases orderMap_bootstrap hl hiter hpin c.wire with ⟨-, hmap⟩ | ⟨hnot, -⟩
  · rw [hmap]
    exact hsettled _ (List.suffix_refl _)
  · exact absurd hpub hnot

/-- A bootstrap of another subscription leaves the coin's map alone. -/
theorem HlClient.Follows.of_other_bootstrap {c c' : HlClient} (hf : c.Follows coin k h) {iter : List BookKey}
    {sub : Sub} (hsub : sub ≠ .l4Book coin) (hrx : c'.rx = c.rx)
    (hwire : c'.wire = c.wire ++ (Hl.bootstrap h.books iter sub (c.pin sub)).map .l4Book)
    (howed : c.Owed coin → c'.Owed coin) : c'.Follows coin k h := by
  refine hf.congr rfl (Hub.pipeline_congr hrx) ?_ howed
  rw [hwire]
  refine orderMap_of_other fun f hf => ?_
  obtain ⟨f', hf', he⟩ := List.mem_map.mp hf
  rw [← Wire.l4Book.inj he]
  exact fun hcoin => hsub (hcoin ▸ bootstrap_coin hf')

theorem Tracks.advance {c c' : HlClient} {w : Wanted} (ht : Tracks coin k H h c) (hl : Ledger coin k H h)
    {iter : List BookKey} (hiter : Iterates h iter) (hc' : (c.advance h.books iter w).2 = some c') :
    Tracks coin k H h c' := by
  have hrx := HlClient.rx_advance hc'
  unfold HlClient.advance at hc'
  split at hc'
  · cases hc'
    exact ht
  · cases hc'
    refine ht.congr (Hub.pipeline_congr hrx) ?_ fun key hkey => ht.pinned key ?_
    · simp only
      split <;> rfl
    · revert hkey
      simp only
      split <;> exact id
  · cases hc'
    exact ht.bootstrap hl hiter rfl rfl rfl
  · cases hc'
    exact ht.congr rfl rfl ht.pinned
  · cases hc'
    exact ht.bootstrap hl hiter rfl rfl rfl
  · split at hc'
    · cases hc'
    · cases hc'
      exact ht.congr rfl rfl ht.pinned

/-- The queue of a client leaves the market alone when no order is overtaken in it. -/
theorem settled_of_queue {c : HlClient} (ht : Tracks coin k H h c) (hl : Ledger coin k H h)
    (hover : ∀ oid, ¬ Overtaken Passing.effect Passing.kept (liveOf k (h.pipeline c)) oid) :
    Settled Passing.effect Passing.kept (quotes h k) (liveOf k (h.pipeline c)) := by
  obtain ⟨front, hfront⟩ := ht.carrying.recent
  have hplay : quotes h k = play Passing.effect (play batchEffect (fun _ => none) front)
      (liveOf k (h.pipeline c)) := by
    rw [hl.quotes, ← hfront, LastWrite.play_append]
    exact List.foldl_map
  rw [hplay]
  exact LastWrite.settled_of_not_overtaken hover

/-- A subscriber keeps following when its task moves on; a new one starts to. -/
theorem HlClient.Follows.advance {c c' : HlClient} {w : Wanted} (ht : Tracks coin k H h c)
    (hl : Ledger coin k H h) {iter : List BookKey} (hiter : Iterates h iter)
    (hover : c.phase = .bootstrapping (.l4Book coin) →
      ∀ oid, ¬ Overtaken Passing.effect Passing.kept (liveOf k (h.pipeline c)) oid)
    (hf : c.phase ≠ .closing → .l4Book coin ∈ c.subs → c.Follows coin k h)
    (hc' : (c.advance h.books iter w).2 = some c') (hp' : c'.phase ≠ .closing) (hsub : .l4Book coin ∈ c'.subs) :
    c'.Follows coin k h := by
  unfold HlClient.advance at hc'
  cases hp : c.phase with
  | ready =>
    rw [hp] at hc'
    cases hc'
    exact hf (hp ▸ nofun) hsub
  | subscribing sub =>
    rw [hp] at hc'
    have hmem : .l4Book coin ∈ c.subs := by
      cases hc'
      revert hsub
      simp only
      split <;> exact id
    refine (hf (hp ▸ nofun) hmem).congr rfl (Hub.pipeline_congr ?_) ?_ fun howed => ?_
    · cases hc'
      simp only
      split <;> rfl
    · cases hc'
      simp only
      split <;> rfl
    · exact absurd howed (not_owed (hp ▸ nofun))
  | bootstrapping sub =>
    rw [hp] at hc'
    cases hc'
    by_cases hs : sub = .l4Book coin
    · subst hs
      exact HlClient.Follows.of_bootstrap ht hl hiter rfl rfl (settled_of_queue ht hl (hover hp))
    · have hmem : .l4Book coin ∈ c.subs := by
        rcases List.mem_append.mp hsub with hsub | hsub
        · exact hsub
        · exact absurd (List.mem_singleton.mp hsub).symm hs
      exact (hf (hp ▸ nofun) hmem).of_other_bootstrap hs rfl rfl fun howed => absurd howed (not_owed (hp ▸ nofun))
  | rebootstrapping left =>
    rw [hp] at hc'
    cases left with
    | nil =>
      cases hc'
      refine (hf (hp ▸ nofun) hsub).congr rfl rfl rfl fun howed => ?_
      obtain ⟨left, hleft, hmem⟩ := howed
      rw [hp] at hleft
      cases hleft
      cases hmem
    | cons sub left =>
      cases hc'
      have hfollows := hf (hp ▸ nofun) hsub
      by_cases hs : sub = .l4Book coin
      · subst hs
        exact HlClient.Follows.of_bootstrap ht hl hiter rfl rfl hfollows.settled
      · refine hfollows.of_other_bootstrap hs rfl rfl fun howed => ?_
        obtain ⟨left', hleft, hmem⟩ := howed
        rw [hp] at hleft
        cases hleft
        exact ⟨left, rfl, (List.mem_cons.mp hmem).resolve_left (Ne.symm hs)⟩
  | closing =>
    rw [hp] at hc'
    simp only at hc'
    split at hc'
    · cases hc'
    · cases hc'
      exact absurd rfl hp'

/-! ## Reading the queue -/

/-- What a frame does to the map of the coin. -/
theorem orderMap_frames {c : HlClient} {p : PreparedMessage} {b : NormalizedBook} (hnodup : c.subs.Nodup)
    (hb : venueBatch p.msg = some b) (hfaith : (Prepared.message p).Faithful) :
    orderMap coin (c.frames p).wire = orderMap coin c.wire ∨
      (b.symbol = coin ∧ ∃ f, p.l4 = some f ∧ orderMap coin (c.frames p).wire =
        f.data.apply (orderMap coin c.wire)) := by
  obtain ⟨hkey, market, wants, idle, hl4⟩ := hfaith b hb
  rw [HlClient.frames_wire hnodup hb hkey]
  split
  · cases hp : p.l4 with
    | none => exact Or.inl (by rw [Option.toList_none, List.map_nil, List.append_nil])
    | some f =>
      have hcoin : f.coin = b.symbol := by
        rw [hp] at hl4
        unfold renderL4 at hl4
        split at hl4
        · cases hl4
        · split at hl4
          · split at hl4
            · cases hl4
              rfl
            · cases hl4
          · obtain ⟨data, -, rfl⟩ := Option.map_eq_some_iff.mp hl4.symm
            rfl
      by_cases hc : b.symbol = coin
      · right
        refine ⟨hc, f, rfl, ?_⟩
        rw [orderMap_append]
        exact if_pos (hcoin.trans hc)
      · left
        refine orderMap_of_other fun f' hf' => ?_
        obtain rfl : f' = f := by simpa using hf'
        exact fun he => hc (hcoin.symm.trans he)
  · exact Or.inl (by rw [List.append_nil])

/-- A subscriber writes every frame of the coin to its client. -/
theorem orderMap_frames_of_subscribed {c : HlClient} {p : PreparedMessage} {b : NormalizedBook}
    (hnodup : c.subs.Nodup) (hb : venueBatch p.msg = some b) (hfaith : (Prepared.message p).Faithful)
    (hreg : Regular b) (hsub : .l4Book b.symbol ∈ c.subs)
    (hpin : ∀ key, c.pinned.get b.symbol = some key → key = marketOf b) :
    (orderMap b.symbol (c.frames p).wire).get =
      p.l4.elim (orderMap b.symbol c.wire).get fun _ => write batchEffect b (orderMap b.symbol c.wire).get := by
  obtain ⟨hkey, market, wants, idle, hl4⟩ := hfaith b hb
  have hall : (c.pinned.get b.symbol).all (fun held => held = marketOf b) = true := by
    cases hp : c.pinned.get b.symbol with
    | none => rfl
    | some key => exact decide_eq_true (hpin key hp)
  rw [HlClient.frames_wire hnodup hb hkey, if_pos ⟨hsub, hall⟩, orderMap_append]
  cases hp : p.l4 with
  | none => rfl
  | some f =>
    obtain ⟨hcoin, -, heff⟩ := renderL4_effect hreg (hl4.symm.trans hp)
    show (if f.coin = b.symbol then f.data.apply (orderMap b.symbol c.wire) else _).get = _
    rw [if_pos hcoin]
    exact heff _

theorem Tracks.forward {c : HlClient} (ht : Tracks coin k H h c) (hl : Ledger coin k H h)
    (hnodup : c.subs.Nodup) (hfaith : ∀ p ∈ c.rx.buf, p.Faithful) (now : Nat) :
    Tracks coin k H h (c.forward now) := by
  have hreboot : ∀ c' : HlClient, c'.wire = c.wire → c'.pinned = c.pinned →
      Carrying coin k H (h.pipeline c') → Tracks coin k H h (c'.rebootstrap now) := by
    intro c' hwire hpinned hcarry
    rcases HlClient.rebootstrap_cases now with ⟨frames, hframes, -, heq⟩ | heq
    · rw [heq]
      refine ⟨hcarry, ?_, ?_⟩
      · show ∀ oid, (orderMap coin (c'.wire ++ frames)).get oid ≠ none → _
        rw [orderMap_of_other fun f hf => absurd hf (hframes f), hwire]
        exact ht.rested
      · exact hpinned ▸ ht.pinned
    · rw [heq]
      exact ⟨hcarry, hwire ▸ ht.rested, hpinned ▸ ht.pinned⟩
  unfold HlClient.forward
  rcases Receiver.recv_cases c.rx with ⟨hmissed, heq⟩ | ⟨-, -, heq⟩ | ⟨x, buf, hmissed, hbuf, heq⟩
  · rw [heq]
    refine hreboot _ rfl rfl ?_
    have := ht.carrying
    rw [Hub.pipeline_told { c with rx := ⟨c.rx.buf, false⟩ } hmissed rfl] at this
    exact Carrying.drop (F := [.lost]) this
  · rw [heq]
    exact ht
  · rw [heq]
    have hcarry := ht.carrying
    cases x with
    | resync =>
      rw [Hub.pipeline_read { c with rx := ⟨buf, false⟩ } hmissed hbuf rfl] at hcarry
      simp only
      split
      · exact hreboot _ rfl rfl hcarry.drop
      · exact ⟨hcarry.drop, ht.rested, ht.pinned⟩
    | message p =>
      rw [Hub.pipeline_read (({ c with rx := ⟨buf, false⟩ } : HlClient).frames p) hmissed hbuf
        (HlClient.rx_frames p)] at hcarry
      simp only
      cases hb : venueBatch p.msg with
      | none =>
        rw [HlClient.frames_of_none hb] at hcarry ⊢
        exact ⟨hcarry.drop, ht.rested, ht.pinned⟩
      | some b =>
        have hfaith' := hfaith (.message p) (hbuf ▸ List.mem_cons_self)
        have hmem : Item.batch ⟨b, some p.l4⟩ ∈ Prepared.items (.message p) ++
            h.pipeline (({ c with rx := ⟨buf, false⟩ } : HlClient).frames p) := by
          refine List.mem_append_left _ ?_
          rw [show Prepared.items (.message p) = itemsOf p.msg (some p.l4) from rfl, itemsOf_some hb]
          exact List.mem_singleton_self _
        refine ⟨hcarry.drop, fun oid hne => ?_, fun key hkey => ?_⟩
        · rcases orderMap_frames (c := { c with rx := ⟨buf, false⟩ }) hnodup hb hfaith' with hmap | ⟨hsym, f, hf, hmap⟩
          · rw [hmap] at hne
            exact ht.rested oid hne
          · obtain ⟨hkey, market, wants, idle, hl4⟩ := hfaith' b hb
            have hk := (hcarry.market _ hmem).mpr hsym
            have hbH := hcarry.history _ hmem hk
            obtain ⟨-, -, heff⟩ := renderL4_effect (hl.regular b hbH) (hl4.symm.trans hf)
            rw [hmap, heff] at hne
            cases he : effect b.changes oid with
            | none =>
              have hsame : write (fun b : NormalizedBook => effect b.changes) b (orderMap coin c.wire).get oid =
                  (orderMap coin c.wire).get oid := LastWrite.write_of_none he
              exact ht.rested oid (hsame ▸ hne)
            | some w =>
              have hset : write (fun b : NormalizedBook => effect b.changes) b (orderMap coin c.wire).get oid = w :=
                LastWrite.write_of_some he
              obtain ⟨v, rfl⟩ := Option.ne_none_iff_exists'.mp (hset ▸ hne)
              exact ⟨b, hbH, v, he⟩
        · rw [HlClient.frames_pinned hb (hfaith' b hb).1] at hkey
          split at hkey
          · rename_i hcond
            cases hkey
            exact (hcarry.market _ hmem).mpr hcond.1.symm
          · exact ht.pinned key hkey

/-- A subscriber keeps following as it reads. -/
theorem HlClient.Follows.forward {c : HlClient} (hf : c.Follows coin k h) (ht : Tracks coin k H h c)
    (hl : Ledger coin k H h) (hp : c.phase = .ready) (hnodup : c.subs.Nodup)
    (hfaith : ∀ p ∈ c.rx.buf, p.Faithful) (hsub : .l4Book coin ∈ c.subs) (now : Nat)
    (hp' : (c.forward now).phase ≠ .closing) : (c.forward now).Follows coin k h := by
  have hany : c.subs.any Sub.isL4Book = true := List.any_eq_true.mpr ⟨_, hsub, rfl⟩
  have hnot : ¬ c.Owed coin := not_owed (hp ▸ nofun)
  -- after a gap the coin is among what is to be re-bootstrapped
  have hreboot : ∀ c' : HlClient, c'.subs = c.subs → (c'.rebootstrap now).phase ≠ .closing →
      Settled Passing.effect Passing.kept (quotes h k) (liveOf k (h.pipeline c')) →
      (c'.rebootstrap now).Follows coin k h := by
    intro c' hsubs hopen hsettled
    rcases HlClient.rebootstrap_cases (c := c') now with ⟨frames, -, -, heq⟩ | heq
    · rw [heq] at hopen
      exact absurd rfl hopen
    · rw [heq]
      refine ⟨hsettled, Or.inr (Or.inl ⟨_, rfl, List.mem_filter.mpr ⟨hsubs ▸ hsub, rfl⟩⟩)⟩
  unfold HlClient.forward at hp' ⊢
  unfold HlClient.Follows at hf
  rcases Receiver.recv_cases c.rx with ⟨hmissed, heq⟩ | ⟨-, -, heq⟩ | ⟨x, buf, hmissed, hbuf, heq⟩
  · rw [heq] at hp' ⊢
    rw [Hub.pipeline_told { c with rx := ⟨c.rx.buf, false⟩ } hmissed rfl] at hf
    exact hreboot _ rfl hp' hf.settled
  · rw [heq]
    exact hf
  · rw [heq] at hp' ⊢
    have hcarry := ht.carrying
    cases x with
    | resync =>
      rw [Hub.pipeline_read { c with rx := ⟨buf, false⟩ } hmissed hbuf rfl] at hf
      simp only [hany, if_true] at hp' ⊢
      exact hreboot _ rfl hp' (hf.settled.suffix (liveOf_suffix k _ _))
    | message p =>
      have hread := Hub.pipeline_read (h := h) (({ c with rx := ⟨buf, false⟩ } : HlClient).frames p) hmissed
        hbuf (HlClient.rx_frames p)
      rw [hread] at hf hcarry
      simp only at hp' ⊢
      cases hb : venueBatch p.msg with
      | none =>
        have hitems : Prepared.items (.message p) = [] := itemsOf_none hb _
        rw [hitems, List.nil_append] at hf
        have hsame : (({ c with rx := ⟨buf, false⟩ } : HlClient).frames p).wire = c.wire := by
          rw [HlClient.frames_of_none hb]
        refine ⟨hf.settled, ?_⟩
        rw [hsame]
        exact hf.current.imp_right (Or.imp_left fun howed => absurd howed hnot)
      | some b =>
        have hitems : Prepared.items (.message p) = [.batch ⟨b, some p.l4⟩] := itemsOf_some hb _
        rw [hitems] at hf hcarry
        refine ⟨hf.settled.suffix (liveOf_suffix k _ _), ?_⟩
        by_cases hlost : .lost ∈ h.pipeline (({ c with rx := ⟨buf, false⟩ } : HlClient).frames p)
        · exact Or.inl hlost
        refine Or.inr (Or.inr fun hpub => ?_)
        have hcur := hf.current.resolve_left fun hx => by
          rcases List.mem_append.mp hx with hx | hx
          · simp at hx
          · exact hlost hx
        have hcur := hcur.resolve_left hnot hpub
        rw [List.singleton_append, liveOf_batch hlost] at hcur
        have hmem : Item.batch ⟨b, some p.l4⟩ ∈ [.batch ⟨b, some p.l4⟩] ++
            h.pipeline (({ c with rx := ⟨buf, false⟩ } : HlClient).frames p) :=
          List.mem_append_left _ (List.mem_singleton_self _)
        have hfaith' := hfaith (.message p) (hbuf ▸ List.mem_cons_self)
        by_cases hk : marketOf b = k
        · have hsym : b.symbol = coin := (hcarry.market _ hmem).mp hk
          have hbH := hcarry.history _ hmem hk
          rw [if_pos hk] at hcur
          subst hsym
          have hpin : ∀ key, c.pinned.get b.symbol = some key → key = marketOf b := fun key hkey =>
            (ht.pinned key hkey).trans hk.symm
          rw [orderMap_frames_of_subscribed (c := { c with rx := ⟨buf, false⟩ }) hnodup hb hfaith'
            (hl.regular b hbH) hsub hpin]
          cases hp4 : p.l4 with
          | none =>
            rw [hp4, LastWrite.replay_cons_of_not_kept rfl] at hcur
            exact hcur
          | some f =>
            rw [hp4, LastWrite.replay_cons_of_kept rfl] at hcur
            exact hcur
        · rw [if_neg hk] at hcur
          rcases orderMap_frames (c := { c with rx := ⟨buf, false⟩ }) hnodup hb hfaith' with hmap | ⟨hsym, -⟩
          · rw [hmap]
            exact hcur
          · exact absurd ((hcarry.market _ hmem).mpr hsym) hk

/-! ## Every run -/

/-- What a run keeps, with the market's batches so far. -/
structure Coherent (coin : String) (k : BookKey) (H : List NormalizedBook) (h : Hub) : Prop where
  accounted : Accounted h
  faithful : Faithful h
  ledger : Ledger coin k H h
  memory : Memory k H h
  ahead : Carrying coin k H (h.pipeline .fresh)
  tracks : ∀ i c, h.clients.get i = some c → Tracks coin k H h c
  follows : ∀ i c, h.clients.get i = some c → c.phase ≠ .closing → .l4Book coin ∈ c.subs → c.Follows coin k h

theorem Coherent.init : Coherent coin k [] .init where
  accounted := .init
  faithful := .init
  ledger := ⟨fun _ h => (by cases h), fun _ => rfl, rfl, fun _ h => (by cases h), fun _ _ h => (by cases h)⟩
  memory := fun _ _ => ⟨[], rfl, fun _ h => by cases h⟩
  ahead := .nil
  tracks := fun _ _ h => by cases h
  follows := fun _ _ h => by cases h

/-- A subscriber's coin is wanted. -/
theorem Coherent.wanted (hco : Coherent coin k H h) {i : Nat} {c : HlClient} (hc : h.clients.get i = some c)
    (hp : c.phase ≠ .closing) (hsub : .l4Book coin ∈ c.subs) : (h.wanted.wants coin).l4 ≠ 0 := by
  refine hco.accounted.wanted_pos hc hp ?_
  unfold HlClient.claims
  split
  · exact List.mem_append_left _ hsub
  · exact hsub

theorem Coherent.turn (hco : Coherent coin k H h) {i : Nat}
    {act : Wanted → HlClient → Wanted × Option HlClient} (hacc : Accounted (h.turn i act))
    (hfaith : Faithful (h.turn i act))
    (hact : ∀ c c', h.clients.get i = some c → (act h.wanted c).2 = some c' →
      Tracks coin k H h c' ∧ (c'.phase ≠ .closing → .l4Book coin ∈ c'.subs → c'.Follows coin k h)) :
    Coherent coin k H (h.turn i act) := by
  obtain ⟨hbooks, harr, hback, hstage, hpub, -⟩ := Hub.turn_front (h := h) (i := i)
  refine ⟨hacc, hfaith, hco.ledger.of_books hbooks, hco.memory.congr hback hstage harr hpub, ?_, ?_, ?_⟩
  · rw [Hub.turn_pipeline]
    exact hco.ahead
  · have hself : ∀ c c', h.clients.get i = some c → (act h.wanted c).2 = some c' →
        Tracks coin k H (h.turn i act) c' := fun c c' hc hc' =>
      (hact c c' hc hc').1.congr (Hub.turn_pipeline c') rfl (hact c c' hc hc').1.pinned
    exact Hub.turn_all hself fun j c _ hc => (hco.tracks j c hc).congr (Hub.turn_pipeline c) rfl
      (hco.tracks j c hc).pinned
  · have hself : ∀ c c', h.clients.get i = some c → (act h.wanted c).2 = some c' →
        c'.phase ≠ .closing → .l4Book coin ∈ c'.subs → c'.Follows coin k (h.turn i act) :=
      fun c c' hc hc' hp hsub => ((hact c c' hc hc').2 hp hsub).congr hbooks (Hub.turn_pipeline c') rfl id
    exact Hub.turn_all hself fun j c _ hc hp hsub =>
      (hco.follows j c hc hp hsub).congr hbooks (Hub.turn_pipeline c) rfl id

theorem Coherent.turnReady (hco : Coherent coin k H h) {i : Nat} {act : Wanted → HlClient → Wanted × HlClient}
    (hacc : Accounted (h.turnReady i act)) (hfaith : Faithful (h.turnReady i act))
    (hact : ∀ c, h.clients.get i = some c → c.phase = .ready →
      Tracks coin k H h (act h.wanted c).2 ∧ ((act h.wanted c).2.phase ≠ .closing →
        .l4Book coin ∈ (act h.wanted c).2.subs → (act h.wanted c).2.Follows coin k h)) :
    Coherent coin k H (h.turnReady i act) := by
  refine hco.turn hacc hfaith fun c c' hc hc' => ?_
  simp only at hc'
  split at hc'
  · rename_i hp
    cases hc'
    exact hact c hc hp
  · cases hc'
    exact ⟨hco.tracks i c hc, hco.follows i c hc⟩

theorem prepare_books (iter : List BookKey) : (h.prepare iter).books = h.books := by
  unfold Hub.prepare
  split
  · split <;> rfl
  all_goals rfl

/-- A published message keeps the run coherent, with the batches it adds. -/
theorem Coherent.publish (hco : Coherent coin k H h) {capacity : Nat} {m : FeedMessage}
    (hm : CarriedBy coin k h m) (hreg : ∀ b, m.batch = some b → marketOf b = k → Regular b)
    (harr : h.arriving = none) : Coherent coin k (H ++ newBatches k m) (h.step capacity (.publish m)) := by
  have hmarket : ∀ b, venueBatch m = some b → (marketOf b = k ↔ b.symbol = coin) := by
    intro b hb
    obtain ⟨rfl, hsource⟩ := venueBatch_book hb
    rw [hm.market b rfl]
    exact ⟨fun hx => hx.2, fun hx => ⟨hsource, hx⟩⟩
  have hclients : (h.publish m).clients = h.clients := by
    unfold Hub.publish
    rw [harr]
  refine ⟨hco.accounted.step capacity _, hco.faithful.step capacity _, hco.ledger.publish hm hreg harr,
    hco.memory.publish m harr, ?_, ?_, ?_⟩
  · show Carrying coin k _ ((h.publish m).pipeline .fresh)
    rw [Hub.publish_pipeline harr]
    exact hco.ahead.publish hmarket
  · intro i c hc
    have hc : (h.publish m).clients.get i = some c := hc
    rw [hclients] at hc
    have ht := hco.tracks i c hc
    refine ⟨?_, fun oid hne => (ht.rested oid hne).mono, ht.pinned⟩
    show Carrying coin k _ ((h.publish m).pipeline c)
    rw [Hub.publish_pipeline harr]
    exact ht.carrying.publish hmarket
  · intro i c hc hp hsub
    have hc : (h.publish m).clients.get i = some c := hc
    rw [hclients] at hc
    exact (hco.follows i c hc hp hsub).publish (hco.tracks i c hc) hco.ledger hm hreg harr

/-- What the arbiter's broadcast and the stage do keeps the run coherent. -/
theorem Coherent.moved {h' : Hub} (hco : Coherent coin k H h) (hacc : Accounted h') (hfaith : Faithful h')
    (hbooks : h'.books = h.books) (hmem : Memory k H h') (hahead : Carrying coin k H (h'.pipeline .fresh))
    (hclients : ∀ i c', h'.clients.get i = some c' → ∃ c, h.clients.get i = some c ∧ c' = { c with rx := c'.rx } ∧
      Moves h (h.pipeline c) (h'.pipeline c')) : Coherent coin k H h' := by
  refine ⟨hacc, hfaith, hco.ledger.of_books hbooks, hmem, hahead, ?_, ?_⟩
  · intro i c' hc'
    obtain ⟨c, hc, heq, hmoves⟩ := hclients i c' hc'
    have ht := hco.tracks i c hc
    have hwire : c'.wire = c.wire := by rw [heq]
    have hpinned : c'.pinned = c.pinned := by rw [heq]
    exact ⟨ht.carrying.moves hmoves, hwire ▸ ht.rested, hpinned ▸ ht.pinned⟩
  · intro i c' hc' hp hsub
    obtain ⟨c, hc, heq, hmoves⟩ := hclients i c' hc'
    have hphase : c'.phase = c.phase := by rw [heq]
    have hsubs : c'.subs = c.subs := by rw [heq]
    rw [hphase] at hp
    rw [hsubs] at hsub
    exact (hco.follows i c hc hp hsub).moves (hco.tracks i c hc) hco.ledger hco.memory (hco.wanted hc hp hsub)
      hmoves hbooks heq

/-- A fresh client holds nothing, and is subscribed to nothing. -/
theorem Coherent.connect (hco : Coherent coin k H h) (hacc : Accounted h.connect) (hfaith : Faithful h.connect) :
    Coherent coin k H h.connect := by
  rcases Hub.connect_cases h with heq | heq
  · rw [heq]
    exact hco
  · rw [heq] at hacc hfaith ⊢
    refine ⟨hacc, hfaith, hco.ledger.of_books rfl, hco.memory.congr rfl rfl rfl rfl, hco.ahead, ?_, ?_⟩
    · intro i c hc
      rw [FinMap.get_insert] at hc
      split at hc
      · cases hc
        exact ⟨hco.ahead, fun _ hne => absurd rfl hne, fun _ hkey => by cases hkey⟩
      · exact (hco.tracks i c hc).congr rfl rfl (hco.tracks i c hc).pinned
    · intro i c hc hp hsub
      rw [FinMap.get_insert] at hc
      split at hc
      · cases hc
        cases hsub
      · exact (hco.follows i c hc hp hsub).congr rfl rfl rfl id

theorem Coherent.step (hco : Coherent coin k H h) {capacity : Nat} {s : Step} (hd : s.InDomain coin k h)
    (hr : s.Renderable coin k h) : ∃ H', Coherent coin k H' (h.step capacity s) := by
  have hacc := hco.accounted.step capacity s
  have hfaith := hco.faithful.step capacity s
  cases s with
  | publish m =>
    cases harr : h.arriving with
    | none => exact ⟨_, hco.publish hd hr harr⟩
    | some m' =>
      have hsame : h.step capacity (.publish m) = h := by
        show h.publish m = h
        unfold Hub.publish
        rw [harr]
      rw [hsame]
      exact ⟨H, hco⟩
  | append =>
    have hkeep : (h.append capacity).books = h.books ∧ (h.append capacity).clients = h.clients := by
      unfold Hub.append
      split
      · exact ⟨rfl, rfl⟩
      · exact ⟨rfl, rfl⟩
    refine ⟨H, hco.moved hacc hfaith hkeep.1 (hco.memory.append capacity)
      (hco.ahead.moves (Hub.append_moves capacity .fresh)) fun i c' hc' => ?_⟩
    have hc' : (h.append capacity).clients.get i = some c' := hc'
    rw [hkeep.2] at hc'
    exact ⟨c', hc', rfl, Hub.append_moves capacity c'⟩
  | stage iter =>
    have hup : Carrying coin k H h.upstream := by
      have := hco.ahead
      unfold Hub.pipeline at this
      exact this.drop.drop.drop
    refine ⟨H, hco.moved hacc hfaith (prepare_books iter) (hco.memory.prepare hco.ledger hup iter) ?_
      fun i c' hc' => Hub.prepare_client iter hc'⟩
    show Carrying coin k H ((h.prepare iter).pipeline .fresh)
    rcases Hub.prepare_moves (h := h) iter with ⟨-, hmoves⟩ | ⟨p, -, hwait, hupstream, -⟩
    · exact hco.ahead.moves (hmoves .fresh)
    · have heq : (h.prepare iter).pipeline .fresh = h.upstream := by
        unfold Hub.pipeline
        rw [hwait, hupstream]
        rfl
      rw [heq]
      exact hup
  | connect => exact ⟨H, hco.connect hacc hfaith⟩
  | control i request iter =>
    have hturn : h.step capacity (.control i request iter) =
        h.turnReady i fun w c => c.control h.books iter w request := rfl
    rw [hturn] at hacc hfaith ⊢
    refine ⟨H, hco.turnReady hacc hfaith fun c hc hp => ?_⟩
    have ht := hco.tracks i c hc
    refine ⟨ht.control hco.ledger iter request, fun _ hsub => ?_⟩
    have hmem := (HlClient.control_subs (w := h.wanted) hp h.books iter request).1 _ hsub
    exact (hco.follows i c hc (hp ▸ nofun) hmem).control hp iter request
  | advance i iter =>
    have hturn : h.step capacity (.advance i iter) = h.turn i fun w c => c.advance h.books iter w := rfl
    rw [hturn] at hacc hfaith ⊢
    refine ⟨H, hco.turn hacc hfaith fun c c' hc hc' => ?_⟩
    have ht := hco.tracks i c hc
    exact ⟨ht.advance hco.ledger hd hc', HlClient.Follows.advance ht hco.ledger hd (hr c hc) (hco.follows i c hc) hc'⟩
  | forward i now =>
    have hturn : h.step capacity (.forward i now) = h.turnReady i fun w c => (w, c.forward now) := rfl
    rw [hturn] at hacc hfaith ⊢
    refine ⟨H, hco.turnReady hacc hfaith fun c hc hp => ?_⟩
    have ht := hco.tracks i c hc
    have hnodup : c.subs.Nodup := HlClient.claims_of_ready hp ▸ (hco.accounted.shape i c hc (hp ▸ nofun)).nodup
    refine ⟨ht.forward hco.ledger hnodup (hco.faithful.queued i c hc) now, fun hopen hsub => ?_⟩
    have hsub : .l4Book coin ∈ c.subs := (HlClient.forward_keeps hp now).2.1 ▸ hsub
    exact (hco.follows i c hc (hp ▸ nofun) hsub).forward ht hco.ledger hp hnodup (hco.faithful.queued i c hc) hsub
      now hopen
  | hangUp i =>
    have hturn : h.step capacity (.hangUp i) = h.turn i fun w c => (w, some { c with phase := .closing }) := rfl
    rw [hturn] at hacc hfaith ⊢
    refine ⟨H, hco.turn hacc hfaith fun c c' hc hc' => ?_⟩
    cases hc'
    exact ⟨(hco.tracks i c hc).congr rfl rfl (hco.tracks i c hc).pinned, fun hp => absurd rfl hp⟩

/-- Nothing is on its way to a client, and nothing it lost is still to be reported to it. -/
structure Drained (h : Hub) (c : HlClient) : Prop where
  arriving : h.arriving = none
  backbone : h.backbone.buf = []
  told : h.backbone.missed = false
  stage : h.stage = .waiting
  queue : c.rx.buf = []
  toldClient : c.rx.missed = false

theorem Drained.pipeline {c : HlClient} (hd : Drained h c) : h.pipeline c = [] := by
  unfold Hub.pipeline Hub.upstream
  rw [hd.arriving, hd.backbone, hd.told, hd.stage, hd.queue, hd.toldClient]
  rfl

/-- **A subscriber that has read everything holds the accumulator's orders.** -/
theorem subscriber_converges {capacity : Nat} {steps : List Step}
    (hrun : (machine capacity).Along (fun h s => s.InDomain coin k h ∧ s.Renderable coin k h) .init steps)
    {i : Nat} {c : HlClient} {acc : BookAccumulator}
    (hc : ((machine capacity).exec .init steps).clients.get i = some c) (hopen : c.phase ≠ .closing)
    (howed : ¬ c.Owed coin) (hsub : .l4Book coin ∈ c.subs)
    (hdrained : Drained ((machine capacity).exec .init steps) c)
    (hacc : ((machine capacity).exec .init steps).books.get k = some acc)
    (hpub : publishable k acc coin = true) : orderMap coin c.wire = restingQuotes acc.toResting := by
  have hco : ∃ H, Coherent coin k H ((machine capacity).exec .init steps) := by
    refine Machine.along_rule (P := fun h => ∃ H, Coherent coin k H h) ?_ steps _ hrun ⟨[], .init⟩
    rintro h s ⟨hd, hr⟩ ⟨H, hco⟩
    exact hco.step hd hr
  obtain ⟨H, hco⟩ := hco
  have hf := hco.follows i c hc hopen hsub
  unfold HlClient.Follows at hf
  rw [hdrained.pipeline] at hf
  have hcur := (hf.current.resolve_left List.not_mem_nil).resolve_left howed ⟨acc, hacc, hpub⟩
  unfold quotes at hcur
  rw [hacc] at hcur
  refine FinMap.ext fun oid => ?_
  exact congrFun hcur oid

end Market

/-! ## A client that subscribes again -/

theorem iterates_of_keys {h : Hub} {iter : List BookKey} (hnodup : iter.Nodup)
    (hkeys : h.books.keys = iter.toFinset) : Iterates h iter := by
  refine ⟨hnodup, fun key hkey => ?_⟩
  have hmem := FinMap.mem_keys_iff.mpr (FinMap.contains_eq_true.mp hkey)
  rw [hkeys] at hmem
  exact List.mem_toFinset.mp hmem

def btcMarket : BookKey := ⟨⟨SOURCE_ID, "HYPERLIQUID"⟩, "perp", 0, 0⟩

def btcBatch (changes : List BookChange) : NormalizedBook where
  venue := "HYPERLIQUID"
  sourceName := "HYPERLIQUID"
  sourceId := SOURCE_ID
  symbol := "BTC"
  channel := 0
  instrumentId := 0
  category := "perp"
  orderLevel := true
  changes := changes
  batchId := none
  snapshot := false
  last := true
  sourceTsNs := 0
  recvTsNs := 0
  kernelRxTsNs := 0
  wsSendTsNs := 0

/-- A book with one order of size one at price one, and the removal of that order. -/
def btcOrder : NormalizedBook :=
  btcBatch [BookAccumulator.clearBoth, ⟨.update, .bid, ⟨0x3FF0000000000000⟩, ⟨0x3FF0000000000000⟩, 1⟩]

def btcRemoval : NormalizedBook := btcBatch [⟨.delete, .bid, ⟨0x3FF0000000000000⟩, F64.zero, 1⟩]

/-- A client subscribes. -/
def subscribeBtc (iter : List BookKey) : List Step :=
  [.control 0 (.subscribe (.l4Book "BTC")) iter, .advance 0 iter, .advance 0 iter]

/-- A batch is published and prepared. -/
def relayBtc (b : NormalizedBook) : List Step :=
  [.publish (.book b), .append, .stage [btcMarket], .stage [btcMarket], .stage [btcMarket], .stage [btcMarket]]

/-- A client subscribes, and the first book of the coin reaches its queue. -/
def btcOpened : List Step := .connect :: subscribeBtc [] ++ relayBtc btcOrder

/-- The client unsubscribes; the order goes while nobody wants the coin; the client subscribes again and reads its
queue. -/
def btcResubscribed : List Step :=
  .control 0 (.unsubscribe (.l4Book "BTC")) [btcMarket] :: relayBtc btcRemoval ++ subscribeBtc [btcMarket] ++
    [.forward 0 0, .forward 0 0]

theorem btcBatch_carried {h : Hub} {changes : List BookChange}
    (hsizes : ∀ c ∈ changes, c.size.isFinite = true)
    (hroom : (((h.books.get btcMarket).getD (.new "BTC")).buffer (btcBatch changes)).settled.orders.size ≤
      MAX_ACCUMULATED_ORDERS) : CarriedBy "BTC" btcMarket h (.book (btcBatch changes)) := by
  refine ⟨fun b hb => ?_, fun b hb => ?_, fun b hb _ => ?_⟩
  · cases hb
    rfl
  · cases hb
    exact ⟨fun _ => ⟨rfl, rfl⟩, fun _ => rfl⟩
  · cases hb
    exact ⟨rfl, hsizes, hroom⟩

theorem btcOpened_inDomain : (machine 16).Along (fun h s => s.InDomain "BTC" btcMarket h) .init btcOpened := by
  have hnone : ∀ h : Hub, h.books.keys = ∅ → Iterates h [] := fun h hkeys => iterates_of_keys (by decide) hkeys
  have hone : ∀ h : Hub, h.books.keys = {btcMarket} → Iterates h [btcMarket] := fun h hkeys =>
    iterates_of_keys (by decide) (by rw [hkeys]; rfl)
  refine ⟨trivial, hnone _ (by decide +kernel), hnone _ (by decide +kernel), hnone _ (by decide +kernel),
    btcBatch_carried (by decide) (by decide +kernel), trivial, hone _ (by decide +kernel),
    hone _ (by decide +kernel), hone _ (by decide +kernel), hone _ (by decide +kernel), trivial⟩

/-- **A queued frame survives the removal of its order.**  The removal came while nobody wanted the coin, so it
has no frame; the client that subscribes again is given a book without the order, and then reads the older frame
that rests it. -/
theorem resubscriber_keeps_a_removed_order :
    (machine 16).Along (fun h s => s.InDomain "BTC" btcMarket h) .init (btcOpened ++ btcResubscribed) ∧
      ∃ c acc, ((machine 16).exec .init (btcOpened ++ btcResubscribed)).clients.get 0 = some c ∧
        c.phase = .ready ∧ .l4Book "BTC" ∈ c.subs ∧
        Drained ((machine 16).exec .init (btcOpened ++ btcResubscribed)) c ∧
        ((machine 16).exec .init (btcOpened ++ btcResubscribed)).books.get btcMarket = some acc ∧
        publishable btcMarket acc "BTC" = true ∧ orderMap "BTC" c.wire ≠ restingQuotes acc.toResting := by
  have hone : ∀ h : Hub, h.books.keys = {btcMarket} → Iterates h [btcMarket] := fun h hkeys =>
    iterates_of_keys (by decide) (by rw [hkeys]; rfl)
  refine ⟨?_, ?_⟩
  · rw [Machine.along_append]
    refine ⟨btcOpened_inDomain, hone _ (by decide +kernel), btcBatch_carried (by decide) (by decide +kernel),
      trivial, hone _ (by decide +kernel), hone _ (by decide +kernel), hone _ (by decide +kernel),
      hone _ (by decide +kernel), hone _ (by decide +kernel), hone _ (by decide +kernel),
      hone _ (by decide +kernel), trivial, trivial, trivial⟩
  · have hheld : (((machine 16).exec .init (btcOpened ++ btcResubscribed)).clients.get 0).map
        (fun c => (orderMap "BTC" c.wire).get 1) ≠
        (((machine 16).exec .init (btcOpened ++ btcResubscribed)).books.get btcMarket).map
          (fun acc => (restingQuotes acc.toResting).get 1) := by decide +kernel
    refine ⟨_, _, rfl, by decide +kernel, by decide +kernel, ⟨rfl, rfl, rfl, rfl, rfl, rfl⟩, rfl, by decide +kernel,
      fun heq => hheld ?_⟩
    exact congrArg (fun u : OrderMap => some (u.get 1)) heq

/-- A subscriber that reads the first book of its coin. -/
theorem subscriber_converges_on_first_book :
    ∃ c acc, ((machine 16).exec .init (btcOpened ++ [.forward 0 0])).clients.get 0 = some c ∧
      ((machine 16).exec .init (btcOpened ++ [.forward 0 0])).books.get btcMarket = some acc ∧
      orderMap "BTC" c.wire = restingQuotes acc.toResting := by
  have hempty : ∀ (h : Hub) (i : Nat) (oid : Nat) (c : HlClient), h.clients.get i = some c →
      ((h.clients.get i).map fun c => h.pipeline c) = some [] →
      ¬ Overtaken Passing.effect Passing.kept (liveOf btcMarket (h.pipeline c)) oid := by
    rintro h i oid c hc hP ⟨pre, m, mid, m', post, heq, -⟩
    rw [hc] at hP
    have hP : h.pipeline c = [] := Option.some.inj hP
    rw [hP] at heq
    cases pre <;> cases heq
  have hregular : Regular btcOrder := by
    refine ⟨by decide, by decide, ?_, ?_, ?_⟩
    · intro c hc _
      cases hc
      exact ⟨rfl, rfl⟩
    · intro _
      decide
    · intro _
      decide
  have hrun : (machine 16).Along (fun h s => s.InDomain "BTC" btcMarket h ∧ s.Renderable "BTC" btcMarket h) .init
      (btcOpened ++ [.forward 0 0]) := by
    refine Machine.Along.and ?_ ?_
    · rw [Machine.along_append]
      exact ⟨btcOpened_inDomain, trivial, trivial⟩
    · refine ⟨trivial, trivial, fun c hc _ oid => hempty _ 0 oid c hc rfl, fun c hc _ oid => hempty _ 0 oid c hc rfl,
        ?_, trivial, trivial, trivial, trivial, trivial, trivial, trivial⟩
      intro b hb _
      cases hb
      exact hregular
  refine ⟨_, _, rfl, rfl, ?_⟩
  refine subscriber_converges (i := 0) hrun rfl (by decide +kernel) ?_ (by decide +kernel)
    ⟨rfl, rfl, rfl, rfl, rfl, rfl⟩ rfl (by decide +kernel)
  refine not_owed fun left hleft => ?_
  cases (by decide +kernel : Phase.ready = _).trans hleft

end Hl

end EdgeConnect
