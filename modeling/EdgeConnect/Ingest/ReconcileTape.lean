import EdgeConnect.Ingest.ReconcilePurge
import Mathlib.Data.List.Infix

/-!
# One tape in a universe

What `apply_feeds` makes of the tape flags, looked at after every single write of one.

* `electAll` — the election keeps the least key of each universe, in whatever order the keys come up: `want_iff`;
* `moments` — the states of an `apply_feeds` between its writes; `OneKind` — the flags that are set in a universe are
  of one kind;
* `HandsOver` — among the receivers that keep running, the flags that go off are written before those that go on;
* `one_tape_in_each_universe` — with it, one kind at every moment of every run; `two_tapes_at_once` — without it, not.
-/

set_option autoImplicit false

namespace EdgeConnect.Reconcile

open Registry

/-! ## The election -/

section Election

variable {channelOf : FeedKey → Option Nat} {live : FeedKey → TapeLiveness}

/-- A ranked key of a universe, with the least order of those seen. -/
structure Leads (channelOf : FeedKey → Option Nat) (live : FeedKey → TapeLiveness) (seen : List FeedKey)
    (u : Universe) (order : TapeOrder) (key : FeedKey) : Prop where
  mem : key ∈ seen
  within : universeOf channelOf key = u
  ranked : ∃ rank, tapeRank key.kind = some rank ∧ order = tapeOrder live key rank
  least : ∀ k ∈ seen, universeOf channelOf k = u → ∀ rank, tapeRank k.kind = some rank →
    order ≤ tapeOrder live k rank

/-- What the election holds of a universe. -/
def Electing (channelOf : FeedKey → Option Nat) (live : FeedKey → TapeLiveness) (seen : List FeedKey)
    (u : Universe) : Option (TapeOrder × FeedKey) → Prop
  | none => ∀ k ∈ seen, universeOf channelOf k = u → tapeRank k.kind = none
  | some (order, key) => Leads channelOf live seen u order key

theorem Electing.skip {seen : List FeedKey} {u : Universe} {best : Option (TapeOrder × FeedKey)} {key : FeedKey}
    (h : Electing channelOf live seen u best)
    (hkey : universeOf channelOf key = u → ∀ rank, tapeRank key.kind = some rank →
      ∃ cur m, best = some (cur, m) ∧ cur ≤ tapeOrder live key rank) :
    Electing channelOf live (seen ++ [key]) u best := by
  cases best with
  | none =>
    intro k hk hu
    rcases List.mem_append.mp hk with hk | hk
    · exact h k hk hu
    · rw [List.mem_singleton.mp hk] at hu ⊢
      cases hrank : tapeRank key.kind with
      | none => rfl
      | some rank =>
        obtain ⟨cur, m, hbest, -⟩ := hkey hu rank hrank
        cases hbest
  | some b =>
    obtain ⟨order, m⟩ := b
    refine ⟨List.mem_append_left _ h.mem, h.within, h.ranked, fun k hk hu rank hrank => ?_⟩
    rcases List.mem_append.mp hk with hk | hk
    · exact h.least k hk hu rank hrank
    · rw [List.mem_singleton.mp hk] at hu hrank ⊢
      obtain ⟨cur, m', hbest, hle⟩ := hkey hu rank hrank
      cases hbest
      exact hle

/-- One key of the election. -/
theorem elect_electing {seen : List FeedKey} {best : FinMap Universe (TapeOrder × FeedKey)}
    (h : ∀ u, Electing channelOf live seen u (best.get u)) (key : FeedKey) (u : Universe) :
    Electing channelOf live (seen ++ [key]) u ((elect channelOf live best key).get u) := by
  unfold elect
  cases hrank : tapeRank key.kind with
  | none =>
    refine (h u).skip fun _ rank hr => ?_
    rw [hrank] at hr
    cases hr
  | some rank =>
    simp only
    -- what the key does to its own universe where it leads, and to the others
    have hinsert : (∀ k ∈ seen, universeOf channelOf k = universeOf channelOf key → ∀ rank',
        tapeRank k.kind = some rank' → tapeOrder live key rank ≤ tapeOrder live k rank') →
        Electing channelOf live (seen ++ [key]) u
          ((best.insert (universeOf channelOf key) (tapeOrder live key rank, key)).get u) := by
      intro hlead
      rw [FinMap.get_insert]
      by_cases hu : u = universeOf channelOf key
      · rw [if_pos hu]
        refine ⟨List.mem_append_right _ List.mem_cons_self, hu.symm, ⟨rank, hrank, rfl⟩, fun k hk hku rank' hr => ?_⟩
        rcases List.mem_append.mp hk with hk | hk
        · exact hlead k hk (hku.trans hu) rank' hr
        · rw [List.mem_singleton.mp hk] at hr ⊢
          rw [hrank] at hr
          cases hr
          exact le_refl _
      · rw [if_neg hu]
        exact (h u).skip fun heq => absurd heq.symm hu
    have hown := h (universeOf channelOf key)
    cases hbest : best.get (universeOf channelOf key) with
    | none =>
      rw [hbest] at hown
      refine hinsert fun k hk hku rank' hr => ?_
      rw [hown k hk hku] at hr
      cases hr
    | some b =>
      obtain ⟨cur, m⟩ := b
      rw [hbest] at hown
      simp only
      by_cases hle : cur ≤ tapeOrder live key rank
      · rw [if_pos hle]
        refine (h u).skip fun hu rank' hr => ?_
        rw [hrank] at hr
        cases hr
        exact ⟨cur, m, hu ▸ hbest, hle⟩
      · rw [if_neg hle]
        exact hinsert fun k hk hku rank' hr => (not_le.mp hle).le.trans (hown.least k hk hku rank' hr)

theorem electAll (channelOf : FeedKey → Option Nat) (live : FeedKey → TapeLiveness) (l : List FeedKey)
    (u : Universe) :
    Electing channelOf live l u ((l.foldl (elect channelOf live) ∅).get u) := by
  induction l using List.reverseRecOn generalizing u with
  | nil => exact fun k hk => absurd hk List.not_mem_nil
  | append_singleton l key ih =>
    rw [List.foldl_append]
    exact elect_electing ih key u

end Election

/-- **The row of a universe that is minimal in liveness, tape rank and base port** among the desired ones. -/
def Minimal (enabled : List Feed) (live : FeedKey → TapeLiveness) (desired : Finset FeedKey) (key : FeedKey) : Prop :=
  key ∈ desired ∧ ∃ rank, tapeRank key.kind = some rank ∧ ∀ k ∈ desired,
    universeOf (channelIn enabled) k = universeOf (channelIn enabled) key → ∀ rank', tapeRank k.kind = some rank' →
      tapeOrder live key rank ≤ tapeOrder live k rank'

theorem tapeRank_injective {kind kind' : FeedKind} {rank : Nat} (h : tapeRank kind = some rank)
    (h' : tapeRank kind' = some rank) : kind = kind' := by
  cases kind <;> cases h <;> cases kind' <;> cases h' <;> rfl

theorem Minimal.kind_eq {enabled : List Feed} {live : FeedKey → TapeLiveness} {desired : Finset FeedKey}
    {key key' : FeedKey} (h : Minimal enabled live desired key) (h' : Minimal enabled live desired key')
    (hu : universeOf (channelIn enabled) key = universeOf (channelIn enabled) key') : key.kind = key'.kind := by
  obtain ⟨hmem, rank, hrank, hle⟩ := h
  obtain ⟨hmem', rank', hrank', hle'⟩ := h'
  have horder := le_antisymm (hle key' hmem' hu.symm rank' hrank') (hle' key hmem hu rank hrank)
  have hsnd : toLex (rank, key.basePort) = toLex (rank', key'.basePort) := congrArg (fun o => (ofLex o).2) horder
  have hfst : rank = rank' := congrArg (fun o => (ofLex o).1) hsnd
  exact tapeRank_injective hrank (hfst ▸ hrank')

section Owners

variable {enabled : List Feed} {desired : Finset FeedKey} {live : FeedKey → TapeLiveness} {o : Orders enabled}

theorem owner_minimal (hdesired : ∀ key ∈ desired, key ∈ enabledKeys enabled) {u : Universe} {m : FeedKey}
    (h : (ownersOf desired live o).get u = some m) :
    Minimal enabled live desired m ∧ universeOf (channelIn enabled) m = u := by
  unfold ownersOf tapeOwnersByChannel at h
  rw [FinMap.get_mapVals] at h
  obtain ⟨⟨order, key⟩, hget, heq⟩ := Option.map_eq_some_iff.mp h
  cases heq
  have hlead : Leads (channelIn enabled) live (o.elect.walk desired) u order key := by
    have := electAll (channelIn enabled) live (o.elect.walk desired) u
    rw [hget] at this
    exact this
  obtain ⟨rank, hrank, horder⟩ := hlead.ranked
  refine ⟨⟨(mem_walk hdesired).mp hlead.mem, rank, hrank, fun k hk hu rank' hr => ?_⟩, hlead.within⟩
  rw [← horder]
  exact hlead.least k ((mem_walk hdesired).mpr hk) (hu.trans hlead.within) rank' hr

theorem exists_owner (live : FeedKey → TapeLiveness) (o : Orders enabled)
    (hdesired : ∀ key ∈ desired, key ∈ enabledKeys enabled) {key : FeedKey} (hkey : key ∈ desired)
    (hrank : (tapeRank key.kind).isSome = true) :
    ∃ m, (ownersOf desired live o).get (universeOf (channelIn enabled) key) = some m := by
  have h := electAll (channelIn enabled) live (o.elect.walk desired) (universeOf (channelIn enabled) key)
  unfold ownersOf tapeOwnersByChannel
  rw [FinMap.get_mapVals]
  cases hget : ((o.elect.walk desired).foldl (elect (channelIn enabled) live) ∅).get
      (universeOf (channelIn enabled) key) with
  | some b => exact ⟨b.2, rfl⟩
  | none =>
    rw [hget] at h
    rw [h key ((mem_walk hdesired).mpr hkey) rfl] at hrank
    cases hrank

/-- **A receiver is wanted on the tape exactly when its kind is the minimal one of its universe**, in whatever order
the desired keys came up. -/
theorem want_iff (hdesired : ∀ key ∈ desired, key ∈ enabledKeys enabled) {key : FeedKey} :
    want enabled (ownersOf desired live o) key = true ↔ ∃ m, Minimal enabled live desired m ∧
      universeOf (channelIn enabled) m = universeOf (channelIn enabled) key ∧ m.kind = key.kind := by
  unfold want ownsOn
  constructor
  · intro h
    obtain ⟨m, hm, hkind⟩ := (Option.any_eq_true _ _).mp h
    obtain ⟨hmin, hu⟩ := owner_minimal hdesired hm
    exact ⟨m, hmin, hu, of_decide_eq_true hkind⟩
  · rintro ⟨m, hmin, hu, hkind⟩
    obtain ⟨hmem, rank, hrank, -⟩ := id hmin
    obtain ⟨owner, howner⟩ := exists_owner live o hdesired hmem (by rw [hrank]; rfl)
    obtain ⟨hown, hu'⟩ := owner_minimal hdesired howner
    have hget : (ownersOf desired live o).get ⟨key.venue, key.category, channelIn enabled key⟩ = some owner := by
      rw [hu] at howner
      exact howner
    rw [hget, Option.any_some, decide_eq_true_iff]
    exact (hown.kind_eq hmin hu').trans hkind

end Owners

/-! ## Every single write -/

/-- A set flag: of a receiver in the map, or of one that drains. -/
def Emits (r : Reconciler) (key : FeedKey) : Prop :=
  (∃ t, r.active.get key = some t ∧ t.tape = true) ∨ ∃ e ∈ r.draining, e.key = key ∧ e.tape = true

/-- All set flags of a universe are of one kind. -/
def OneKind (enabled : List Feed) (r : Reconciler) : Prop :=
  ∀ key key', Emits r key → Emits r key' →
    universeOf (channelIn enabled) key = universeOf (channelIn enabled) key' → key.kind = key'.kind

section Moments

variable {enabled : List Feed} (desired departed : Finset FeedKey) (live : FeedKey → TapeLiveness) (o : Orders enabled)
  (r : Reconciler)

/-- After the abort loop. -/
def aborted : Reconciler := (o.abort.walk (plan r.active.keys desired).2).foldl (abortOne departed) r

/-- After `publish_tape_owners`. -/
def published : Reconciler :=
  (o.publish.walk (aborted desired departed o r).active.keys).foldl (publishOne enabled (ownersOf desired live o))
    (aborted desired departed o r)

/-- The states of `apply_feeds` around its writes: one flag is written between each and the next. -/
def moments : List Reconciler :=
  ((o.abort.walk (plan r.active.keys desired).2).inits.map fun l => l.foldl (abortOne departed) r) ++
    ((o.publish.walk (aborted desired departed o r).active.keys).inits.map fun l =>
      l.foldl (publishOne enabled (ownersOf desired live o)) (aborted desired departed o r)) ++
    (o.spawn.walk (plan r.active.keys desired).1).inits.map fun l =>
      l.foldl (spawnOne enabled (ownersOf desired live o)) (published desired departed live o r)

theorem applyFeeds_mem_moments : applyFeeds desired departed live o r ∈ moments desired departed live o r := by
  refine List.mem_append_right _ (List.mem_map.mpr ⟨_, (List.mem_inits _ _).mpr (List.prefix_refl _), ?_⟩)
  rfl

/-- Among the receivers that keep running, none whose flag goes on is written before one of another kind of its
universe whose flag is still set. -/
def HandsOver : Prop :=
  (o.publish.walk (r.active.keys ∩ desired)).Pairwise fun key key' =>
    universeOf (channelIn enabled) key = universeOf (channelIn enabled) key' → key.kind ≠ key'.kind →
      want enabled (ownersOf desired live o) key = true → (r.active.get key').any Receiver.tape = false

end Moments

/-! ## What every step keeps -/

def Known (cfg : Config) (r : Reconciler) : Prop := ∀ key ∈ r.active.keys, key ∈ enabledKeys cfg.enabled

structure Tuned (cfg : Config) (r : Reconciler) : Prop where
  known : Known cfg r
  quiet : ∀ e ∈ r.draining, e.tape = false
  oneKind : OneKind cfg.enabled r

section Tuned

variable {cfg : Config} {r : Reconciler} {desired departed : Finset FeedKey} {live : FeedKey → TapeLiveness}
  {o : Orders cfg.enabled}

theorem oneKind_of_active (hquiet : ∀ e ∈ r.draining, e.tape = false)
    (h : ∀ key key' t t', r.active.get key = some t → t.tape = true → r.active.get key' = some t' → t'.tape = true →
      universeOf (channelIn cfg.enabled) key = universeOf (channelIn cfg.enabled) key' → key.kind = key'.kind) :
    OneKind cfg.enabled r := by
  have hactive : ∀ key, Emits r key → ∃ t, r.active.get key = some t ∧ t.tape = true := by
    rintro key (h | ⟨e, he, -, htape⟩)
    · exact h
    · rw [hquiet e he] at htape
      cases htape
  intro key key' hkey hkey' hu
  obtain ⟨t, hget, ht⟩ := hactive key hkey
  obtain ⟨t', hget', ht'⟩ := hactive key' hkey'
  exact h key key' t t' hget ht hget' ht' hu

/-- Two receivers that are wanted in one universe are of its owner's kind. -/
theorem want_kind_eq {owners : FinMap Universe FeedKey} {key key' : FeedKey} (h : want cfg.enabled owners key = true)
    (h' : want cfg.enabled owners key' = true)
    (hu : universeOf (channelIn cfg.enabled) key = universeOf (channelIn cfg.enabled) key') : key.kind = key'.kind := by
  obtain ⟨m, hm, hkind⟩ := (Option.any_eq_true _ _).mp h
  obtain ⟨m', hm', hkind'⟩ := (Option.any_eq_true _ _).mp h'
  have hsame : some m = some m' := by
    rw [← hm, ← hm']
    exact congrArg owners.get hu
  cases hsame
  exact (of_decide_eq_true hkind).symm.trans (of_decide_eq_true hkind')

theorem abortAll_quiet : ∀ (l : List FeedKey) (r : Reconciler), (∀ e ∈ r.draining, e.tape = false) →
    ∀ e ∈ (l.foldl (abortOne departed) r).draining, e.tape = false
  | [], _, h => h
  | k :: l, r, h => by
    refine abortAll_quiet l (abortOne departed r k) ?_
    unfold abortOne
    split
    · exact h
    · intro e he
      rcases List.mem_append.mp he with he | he
      · exact h e he
      · rw [List.mem_singleton.mp he]

theorem aborted_keys (hactive : ∀ key ∈ r.active.keys, key ∈ enabledKeys cfg.enabled) :
    (aborted desired departed o r).active.keys = r.active.keys ∩ desired := by
  ext key
  unfold aborted
  rw [FinMap.mem_keys_iff, aborted_get hactive, Finset.mem_inter, FinMap.mem_keys_iff]
  by_cases hd : key ∈ desired
  · simp [hd]
  · simp [hd]

/-- An old flag of a moment of the publish loop belongs to a receiver that is still to come. -/
theorem mem_rest_of_notMem {l : List FeedKey} {key : FeedKey} {t : Receiver} (ht : Tuned cfg r)
    (hl : l <+: o.publish.walk (r.active.keys ∩ desired)) (hkey : key ∉ l)
    (hget : (aborted desired departed o r).active.get key = some t) :
    ∃ rest, o.publish.walk (r.active.keys ∩ desired) = l ++ rest ∧ key ∈ rest := by
  obtain ⟨rest, hrest⟩ := hl
  have hmem : key ∈ r.active.keys ∩ desired := by
    rw [← aborted_keys ht.known]
    exact FinMap.mem_keys_iff.mpr ⟨t, hget⟩
  have hwalk : key ∈ o.publish.walk (r.active.keys ∩ desired) :=
    (mem_walk fun k hk => ht.known k (Finset.mem_inter.mp hk).1).mpr hmem
  rw [← hrest] at hwalk
  exact ⟨rest, hrest.symm, (List.mem_append.mp hwalk).resolve_left hkey⟩

/-- A flag of a moment of the publish loop: written already, or an old one. -/
theorem publishing_get {l : List FeedKey} {key : FeedKey} {t : Receiver} (ht : Tuned cfg r)
    (hget : (l.foldl (publishOne cfg.enabled (ownersOf desired live o)) (aborted desired departed o r)).active.get key =
      some t) (htape : t.tape = true) :
    (key ∈ l ∧ want cfg.enabled (ownersOf desired live o) key = true) ∨
      (key ∉ l ∧ (aborted desired departed o r).active.get key = some t ∧ r.active.get key = some t) := by
  rw [publishAll_get] at hget
  obtain ⟨t₀, hold, heq⟩ := Option.map_eq_some_iff.mp hget
  by_cases hl : key ∈ l
  · rw [if_pos hl] at heq
    rw [← heq] at htape
    exact .inl ⟨hl, htape⟩
  · rw [if_neg hl] at heq
    subst heq
    refine .inr ⟨hl, hold, ?_⟩
    unfold aborted at hold
    rw [aborted_get ht.known] at hold
    split at hold
    · exact hold
    · cases hold

theorem publishing_oneKind (ht : Tuned cfg r) (hover : HandsOver desired live o r) {l : List FeedKey}
    (hl : l <+: o.publish.walk (aborted desired departed o r).active.keys) :
    OneKind cfg.enabled
      (l.foldl (publishOne cfg.enabled (ownersOf desired live o)) (aborted desired departed o r)) := by
  rw [aborted_keys ht.known] at hl
  -- a flag that went on before, beside an old one of another kind, would break the order of the loop
  have hclash : ∀ key key' t, key ∈ l → want cfg.enabled (ownersOf desired live o) key = true → key' ∉ l →
      (aborted desired departed o r).active.get key' = some t → r.active.get key' = some t → t.tape = true →
      universeOf (channelIn cfg.enabled) key = universeOf (channelIn cfg.enabled) key' → key.kind = key'.kind := by
    intro key key' t hkey hwant hkey' haborted hget htape hu
    obtain ⟨rest, hrest, hmem⟩ := mem_rest_of_notMem ht hl hkey' haborted
    unfold HandsOver at hover
    rw [hrest, List.pairwise_append] at hover
    by_contra hkind
    have hoff := hover.2.2 key hkey key' hmem hu hkind hwant
    rw [hget, Option.any_some, htape] at hoff
    cases hoff
  refine oneKind_of_active ?_ fun key key' t t' hget htape hget' htape' hu => ?_
  · rw [foldl_draining publishOne_draining]
    exact abortAll_quiet _ r ht.quiet
  · rcases publishing_get ht hget htape with ⟨hkey, hwant⟩ | ⟨hkey, haborted, hold⟩
    · rcases publishing_get ht hget' htape' with ⟨-, hwant'⟩ | ⟨hkey', haborted', hold'⟩
      · exact want_kind_eq hwant hwant' hu
      · exact hclash key key' t' hkey hwant hkey' haborted' hold' htape' hu
    · rcases publishing_get ht hget' htape' with ⟨hkey', hwant'⟩ | ⟨-, -, hold'⟩
      · exact (hclash key' key t hkey' hwant' hkey haborted hold htape hu.symm).symm
      · exact ht.oneKind key key' (.inl ⟨t, hold, htape⟩) (.inl ⟨t', hold', htape'⟩) hu

theorem spawning_oneKind (ht : Tuned cfg r) (l : List FeedKey) :
    OneKind cfg.enabled
      (l.foldl (spawnOne cfg.enabled (ownersOf desired live o)) (published desired departed live o r)) := by
  have hflag : ∀ key t, (l.foldl (spawnOne cfg.enabled (ownersOf desired live o))
      (published desired departed live o r)).active.get key = some t → t.tape = true →
      want cfg.enabled (ownersOf desired live o) key = true := by
    intro key t hget htape
    rw [spawnAll_get cfg.nodup] at hget
    split at hget
    · cases hget
      exact htape
    · unfold published at hget
      rcases publishing_get ht hget htape with ⟨-, hwant⟩ | ⟨hkey, haborted, -⟩
      · exact hwant
      · rw [aborted_keys ht.known] at hkey
        obtain ⟨rest, hrest, hmem⟩ := mem_rest_of_notMem ht (List.prefix_refl _) hkey haborted
        rw [List.self_eq_append_right.mp hrest] at hmem
        cases hmem
  refine oneKind_of_active ?_ fun key key' t t' hget htape hget' htape' hu => ?_
  · rw [foldl_draining spawnOne_draining]
    unfold published
    rw [foldl_draining publishOne_draining]
    exact abortAll_quiet _ r ht.quiet
  · exact want_kind_eq (hflag key t hget htape) (hflag key' t' hget' htape') hu

theorem aborting_oneKind (ht : Tuned cfg r) (l : List FeedKey) :
    OneKind cfg.enabled (l.foldl (abortOne departed) r) := by
  refine oneKind_of_active (abortAll_quiet l r ht.quiet) fun key key' t t' hget htape hget' htape' hu => ?_
  rw [abortAll_get] at hget hget'
  split at hget
  · cases hget
  · split at hget'
    · cases hget'
    · exact ht.oneKind key key' (.inl ⟨t, hget, htape⟩) (.inl ⟨t', hget', htape'⟩) hu

/-- **One kind after every single write of a flag**, where the tape is handed over off before on. -/
theorem moments_oneKind (ht : Tuned cfg r) (hover : HandsOver desired live o r) :
    ∀ r' ∈ moments desired departed live o r, OneKind cfg.enabled r' := by
  intro r' hr'
  rcases List.mem_append.mp hr' with hr' | hr'
  · rcases List.mem_append.mp hr' with hr' | hr'
    · obtain ⟨l, -, rfl⟩ := List.mem_map.mp hr'
      exact aborting_oneKind ht l
    · obtain ⟨l, hl, rfl⟩ := List.mem_map.mp hr'
      exact publishing_oneKind ht hover ((List.mem_inits _ _).mp hl)
  · obtain ⟨l, -, rfl⟩ := List.mem_map.mp hr'
    exact spawning_oneKind ht l

end Tuned

/-! ## Whole runs -/

/-- A desired set names keys of the enabled rows only. -/
structure Desired (enabled : List Feed) where
  keys : Finset FeedKey
  known : ∀ key ∈ keys, key ∈ enabledKeys enabled

inductive TapeStep (enabled : List Feed) where
  | reapFinished
  | applyFeeds (desired : Desired enabled) (departed : Finset FeedKey) (live : FeedKey → TapeLiveness)
      (o : Orders enabled)
  | drainDeparted
  | exit (key : FeedKey)
  | complete (i : Nat)

def tapeStep {enabled : List Feed} (r : Reconciler) : TapeStep enabled → Reconciler
  | .reapFinished => reapFinished r
  | .applyFeeds desired departed live o => applyFeeds desired.keys departed live o r
  | .drainDeparted => drainDeparted enabled r
  | .exit key => step r (.exit key : Step enabled)
  | .complete i => step r (.complete i : Step enabled)

def tapeMachine (enabled : List Feed) : Machine Reconciler (TapeStep enabled) Unit := ⟨fun r s => (tapeStep r s, ())⟩

def TapeStep.HandsOver {enabled : List Feed} (r : Reconciler) : TapeStep enabled → Prop
  | .applyFeeds desired _ live o => Reconcile.HandsOver desired.keys live o r
  | _ => True

section Runs

variable {cfg : Config} {r : Reconciler}

/-- A step that spawns nothing leaves some of the receivers, and no flag that was not set. -/
def Fewer (r r' : Reconciler) : Prop :=
  ∀ key t, r'.active.get key = some t → ∃ t₀, r.active.get key = some t₀ ∧ (t.tape = true → t₀.tape = true)

theorem Known.fewer {r' : Reconciler} (hk : Known cfg r) (h : Fewer r r') : Known cfg r' := by
  intro key hkey
  obtain ⟨t, ht⟩ := FinMap.mem_keys_iff.mp hkey
  obtain ⟨t₀, ht₀, -⟩ := h key t ht
  exact hk key (FinMap.mem_keys_iff.mpr ⟨t₀, ht₀⟩)

theorem Tuned.fewer {r' : Reconciler} (ht : Tuned cfg r) (h : Fewer r r')
    (hquiet : ∀ e ∈ r'.draining, e.tape = false) : Tuned cfg r' := by
  refine ⟨ht.known.fewer h, hquiet, oneKind_of_active hquiet fun key key' t t' hget htape hget' htape' hu => ?_⟩
  obtain ⟨t₀, hget₀, htape₀⟩ := h key t hget
  obtain ⟨t₁, hget₁, htape₁⟩ := h key' t' hget'
  exact ht.oneKind key key' (.inl ⟨t₀, hget₀, htape₀ htape⟩) (.inl ⟨t₁, hget₁, htape₁ htape'⟩) hu

theorem forget_quiet (r : Reconciler) (key : FeedKey) (h : ∀ e ∈ r.draining, e.tape = false) :
    ∀ e ∈ (forgetDepartingChannel cfg.enabled r key).draining, e.tape = false := by
  rcases forget_cases cfg r key with ⟨-, heq⟩ | ⟨T, -, ⟨-, heq⟩ | ⟨-, held, heq, -⟩⟩
  · rw [heq]
    exact h
  · rw [heq]
    intro e he
    obtain ⟨e₀, he₀, rfl⟩ := List.mem_map.mp he
    split
    · exact h e₀ he₀
    · exact h e₀ he₀
  · rw [heq]
    exact h

theorem drainFrom_quiet : ∀ (n i : Nat) (r : Reconciler), (∀ e ∈ r.draining, e.tape = false) →
    ∀ e ∈ (drainFrom cfg.enabled n i r).draining, e.tape = false
  | 0, _, _, h => h
  | n + 1, i, r, h => by
    unfold drainFrom
    cases hi : r.draining[i]? with
    | none => exact h
    | some e =>
      simp only
      have hgone : ∀ e' ∈ r.draining.eraseIdx i, e'.tape = false := fun e' he' => h e' (List.mem_of_mem_eraseIdx he')
      split
      · refine drainFrom_quiet n i _ ?_
        split
        · exact forget_quiet _ e.key hgone
        · exact hgone
      · refine drainFrom_quiet n (i + 1) _ fun e' he' => ?_
        rcases List.mem_or_eq_of_mem_set he' with he' | rfl
        · exact h e' he'
        · exact h e (List.mem_of_getElem? hi)

/-- What a step other than `apply_feeds` can do to the flags. -/
theorem tapeStep_fewer {s : TapeStep cfg.enabled} :
    (∃ desired departed live o, s = .applyFeeds desired departed live o) ∨
      (Fewer r (tapeStep r s) ∧
        ((∀ e ∈ r.draining, e.tape = false) → ∀ e ∈ (tapeStep r s).draining, e.tape = false)) := by
  cases s with
  | applyFeeds desired departed live o => exact .inl ⟨desired, departed, live, o, rfl⟩
  | reapFinished =>
    refine .inr ⟨fun key t ht => ?_, id⟩
    have ht : (r.active.filter fun _ t => !t.finished).get key = some t := ht
    rw [FinMap.get_filter, Option.filter_eq_some_iff] at ht
    exact ⟨t, ht.1, id⟩
  | drainDeparted =>
    refine .inr ⟨fun key t ht => ?_, drainFrom_quiet _ _ r⟩
    have hactive : (tapeStep r (.drainDeparted : TapeStep cfg.enabled)).active = r.active :=
      (drainFrom_keeps cfg _ _ r).1
    rw [hactive] at ht
    exact ⟨t, ht, id⟩
  | exit k =>
    cases hk : r.active.get k with
    | none =>
      have heq : tapeStep r (.exit k : TapeStep cfg.enabled) = r := by
        simp only [tapeStep, step, hk]
      rw [heq]
      exact .inr ⟨fun key t ht => ⟨t, ht, id⟩, id⟩
    | some t₀ =>
      have heq : tapeStep r (.exit k : TapeStep cfg.enabled) =
          { r with active := r.active.insert k { t₀ with finished := true } } := by
        simp only [tapeStep, step, hk]
      rw [heq]
      refine .inr ⟨fun key t ht => ?_, id⟩
      have ht : (r.active.insert k { t₀ with finished := true }).get key = some t := ht
      rw [FinMap.get_insert] at ht
      split at ht
      · rename_i hkey
        cases ht
        exact ⟨t₀, hkey ▸ hk, id⟩
      · exact ⟨t, ht, id⟩
  | complete i =>
    refine .inr ⟨fun key t ht => ⟨t, ht, id⟩, fun h e he => ?_⟩
    have he : e ∈ r.draining.modify i fun e => { e with finished := true } := he
    obtain ⟨j, hj, heq⟩ := List.mem_iff_getElem.mp he
    rw [List.getElem_modify] at heq
    rw [List.length_modify] at hj
    have hold := h r.draining[j] (List.getElem_mem hj)
    subst heq
    split
    · exact hold
    · exact hold

theorem Known.step (hk : Known cfg r) (s : TapeStep cfg.enabled) : Known cfg (tapeStep r s) := by
  rcases tapeStep_fewer (r := r) (s := s) with ⟨desired, departed, live, o, rfl⟩ | ⟨hfewer, -⟩
  · intro key hkey
    have hkey : key ∈ (applyFeeds desired.keys departed live o r).active.keys := hkey
    obtain ⟨t, ht⟩ := FinMap.mem_keys_iff.mp hkey
    rw [applyFeeds_get hk desired.known] at ht
    split at ht
    · rename_i hd
      exact desired.known key hd
    · cases ht
  · exact hk.fewer hfewer

theorem Tuned.step (ht : Tuned cfg r) {s : TapeStep cfg.enabled} (hs : s.HandsOver r) : Tuned cfg (tapeStep r s) := by
  rcases tapeStep_fewer (r := r) (s := s) with ⟨desired, departed, live, o, rfl⟩ | ⟨hfewer, hquiet⟩
  · refine ⟨ht.known.step _, ?_, moments_oneKind ht hs _ (applyFeeds_mem_moments desired.keys departed live o r)⟩
    show ∀ e ∈ (applyFeeds desired.keys departed live o r).draining, e.tape = false
    rw [applyFeeds_draining]
    exact abortAll_quiet _ r ht.quiet
  · exact ht.fewer hfewer (hquiet ht.quiet)

theorem Tuned.init (filter : ChannelFilter) : Tuned cfg (init filter) := by
  refine ⟨fun key hkey => absurd hkey (Finset.notMem_empty key), nofun, ?_⟩
  rintro key key' (⟨t, ht, -⟩ | ⟨e, he, -⟩)
  · cases ht
  · cases he

theorem known_run (filter : ChannelFilter) (steps : List (TapeStep cfg.enabled)) :
    Known cfg ((tapeMachine cfg.enabled).exec (init filter) steps) :=
  Machine.invariant_rule (P := Known cfg) (fun _ s hk => Known.step hk s) steps _ (Tuned.init filter).known

theorem tuned_run {filter : ChannelFilter} {steps : List (TapeStep cfg.enabled)}
    (h : (tapeMachine cfg.enabled).Along (fun r s => s.HandsOver r) (init filter) steps) :
    Tuned cfg ((tapeMachine cfg.enabled).exec (init filter) steps) :=
  Machine.along_rule (P := Tuned cfg) (fun _ _ hok ht => Tuned.step ht hok) steps _ h (.init filter)

end Runs

/-- The flags are those of the minimal desired row of each universe, and a universe with a tape-capable desired row
has a receiver that prints. -/
structure Assigned (cfg : Config) (desired : Finset FeedKey) (live : FeedKey → TapeLiveness) (r : Reconciler) :
    Prop where
  flag : ∀ key t, r.active.get key = some t → (t.tape = true ↔ ∃ m, Minimal cfg.enabled live desired m ∧
    universeOf (channelIn cfg.enabled) m = universeOf (channelIn cfg.enabled) key ∧ m.kind = key.kind)
  emitter : ∀ key ∈ desired, (tapeRank key.kind).isSome = true → ∃ k t f p,
    universeOf (channelIn cfg.enabled) k = universeOf (channelIn cfg.enabled) key ∧ r.active.get k = some t ∧
      t.tape = true ∧ publisherOf cfg.enabled k = some (f, p) ∧ f.emitTrades = true

/-- A row of a configuration prints exactly when its kind is ranked. -/
theorem Config.emitTrades_iff (cfg : Config) {f : Feed} (hf : f ∈ cfg.enabled) :
    f.emitTrades = (tapeRank f.kind).isSome := by
  obtain ⟨g, hg, heq, -⟩ := cfg.selected.kept f hf
  have hg := Registry.emitTrades_iff cfg.checked hg
  rw [heq]
  exact hg

theorem applyFeeds_assigned {cfg : Config} {r : Reconciler} (hk : Known cfg r) (desired : Desired cfg.enabled)
    (departed : Finset FeedKey) (live : FeedKey → TapeLiveness) (o : Orders cfg.enabled) :
    Assigned cfg desired.keys live (applyFeeds desired.keys departed live o r) := by
  refine ⟨fun key t hget => ?_, fun key hkey hrank => ?_⟩
  · rw [applyFeeds_get hk desired.known] at hget
    split at hget
    · cases hget
      exact want_iff desired.known
    · cases hget
  · obtain ⟨m, hm⟩ := exists_owner live o desired.known hkey hrank
    obtain ⟨hmin, hu⟩ := owner_minimal desired.known hm
    obtain ⟨hmem, rank, hrank, -⟩ := id hmin
    obtain ⟨⟨f, p⟩, hpub⟩ := Option.isSome_iff_exists.mp (publisherOf_isSome (desired.known m hmem))
    obtain ⟨hf, -, hkeyOf⟩ := keyOf_of_publisherOf hpub
    have hkind : f.kind = m.kind := congrArg FeedKey.kind hkeyOf
    have hget : (applyFeeds desired.keys departed live o r).active.get m = _ := applyFeeds_get hk desired.known
    rw [if_pos hmem] at hget
    refine ⟨m, _, f, p, hu, hget, ?_, hpub, ?_⟩
    · exact (want_iff desired.known).mpr ⟨m, hmin, rfl, rfl⟩
    · rw [cfg.emitTrades_iff hf, hkind, hrank]
      rfl

/-- **One tape in each universe.**  In every run whose `apply_feeds` hand the tape over off before on, the set flags
of a universe are of one kind, between the calls and after every single write inside them; and after every
`apply_feeds` of any run a flag is set exactly when the receiver's kind is that of the minimal desired row. -/
theorem one_tape_in_each_universe (cfg : Config) (filter : ChannelFilter) (steps : List (TapeStep cfg.enabled)) :
    ((tapeMachine cfg.enabled).Along (fun r s => s.HandsOver r) (init filter) steps →
        OneKind cfg.enabled ((tapeMachine cfg.enabled).exec (init filter) steps) ∧
        ∀ pre desired departed live o post, steps = pre ++ .applyFeeds desired departed live o :: post →
          ∀ r' ∈ moments desired.keys departed live o ((tapeMachine cfg.enabled).exec (init filter) pre),
            OneKind cfg.enabled r') ∧
      ∀ pre desired departed live o post, steps = pre ++ .applyFeeds desired departed live o :: post →
        Assigned cfg desired.keys live
          ((tapeMachine cfg.enabled).exec (init filter) (pre ++ [.applyFeeds desired departed live o])) := by
  refine ⟨fun hrun => ⟨?_, fun pre desired departed live o post heq => ?_⟩, fun pre desired departed live o post heq => ?_⟩
  · exact (tuned_run hrun).oneKind
  · subst heq
    obtain ⟨hpre, hstep, -⟩ := ((tapeMachine cfg.enabled).along_append _ _ _ _).mp hrun
    exact moments_oneKind (tuned_run hpre) hstep
  · rw [Machine.exec_append]
    exact applyFeeds_assigned (known_run filter pre) desired departed live o

/-! ## Two receivers that trade places -/

/-- A top-of-book row. -/
def tobRow : Feed where
  venue := "HYPERLIQUID"
  category := "perps"
  code := "edge-hl-tob"
  kind := .topOfBook
  group := 1
  publishers := [⟨.twoPort 7000 7001, none, none⟩]
  emitTrades := true
  arbitration := .sticky
  sharedBatchId := false
  mirrorOffset := none
  sourceId := none

/-- The market-by-price row of the same universe. -/
def mbpRow : Feed where
  venue := "HYPERLIQUID"
  category := "perps"
  code := "edge-hl-mbp"
  kind := .marketByPrice
  group := 2
  publishers := [⟨.threePort 8000 8001 8002, none, none⟩]
  emitTrades := true
  arbitration := .sticky
  sharedBatchId := false
  mirrorOffset := none
  sourceId := none

def perps : Config where
  rows := [tobRow, mbpRow]
  enabled := [tobRow, mbpRow]
  checked := by rfl
  selected := ⟨List.Subperm.refl _, by
    intro f hf
    exact ⟨f, hf, rfl, List.Sublist.refl _⟩⟩

def tobKey : FeedKey := keyOf tobRow ⟨.twoPort 7000 7001, none, none⟩

def mbpKey : FeedKey := keyOf mbpRow ⟨.threePort 8000 8001 8002, none, none⟩

def tobFirst : Order perps.enabled := ⟨[tobKey, mbpKey], by decide, by decide⟩

def mbpFirst : Order perps.enabled := ⟨[mbpKey, tobKey], by decide, by decide⟩

def inOrder (publish : Order perps.enabled) : Orders perps.enabled := ⟨tobFirst, tobFirst, tobFirst, publish, tobFirst⟩

def onlyMbp : Desired perps.enabled := ⟨{mbpKey}, by decide⟩

def both : Desired perps.enabled := ⟨{tobKey, mbpKey}, by decide⟩

/-- The top-of-book receiver has not bound its socket yet. -/
def binding : FeedKey → TapeLiveness := fun key => if key = tobKey then .unregistered else .up

/-- The market-by-price receiver runs and has the tape; then the other is spawned and has not registered. -/
def beforeRegistration : List (TapeStep perps.enabled) :=
  [.applyFeeds onlyMbp ∅ (fun _ => .up) (inOrder mbpFirst), .applyFeeds both ∅ binding (inOrder mbpFirst)]

/-- **Two tapes at once.**  Once the top-of-book receiver registers, the flags trade places; an iteration that comes
to it first sets its flag while that of the market-by-price receiver is still set. -/
theorem two_tapes_at_once :
    ∃ r' ∈ moments both.keys ∅ (fun _ => .up) (inOrder tobFirst)
        ((tapeMachine perps.enabled).exec (init ∅) beforeRegistration),
      ¬ OneKind perps.enabled r' := by
  refine ⟨(moments both.keys ∅ (fun _ => .up) (inOrder tobFirst)
        ((tapeMachine perps.enabled).exec (init ∅) beforeRegistration)).get ⟨2, by decide +kernel⟩,
    List.get_mem _ _, fun h => ?_⟩
  have hkind := h tobKey mbpKey (.inl ⟨⟨false, true⟩, by decide +kernel⟩) (.inl ⟨⟨false, true⟩, by decide +kernel⟩)
    (by decide)
  exact absurd hkind (by decide)

/-- The iteration that comes to the market-by-price receiver first hands the tape over, and then the top-of-book
receiver alone has it. -/
theorem tape_handed_over :
    OneKind perps.enabled ((tapeMachine perps.enabled).exec (init ∅)
        (beforeRegistration ++ [.applyFeeds both ∅ (fun _ => .up) (inOrder mbpFirst)])) ∧
      Assigned perps both.keys (fun _ => .up) ((tapeMachine perps.enabled).exec (init ∅)
        (beforeRegistration ++ [.applyFeeds both ∅ (fun _ => .up) (inOrder mbpFirst)])) := by
  have h := one_tape_in_each_universe perps ∅
    (beforeRegistration ++ [.applyFeeds both ∅ (fun _ => .up) (inOrder mbpFirst)])
  have hrun : (tapeMachine perps.enabled).Along (fun r s => s.HandsOver r) (init ∅)
      (beforeRegistration ++ [.applyFeeds both ∅ (fun _ => .up) (inOrder mbpFirst)]) := by
    refine ⟨?_, ?_, ?_, trivial⟩
    · unfold TapeStep.HandsOver HandsOver
      decide +kernel
    · unfold TapeStep.HandsOver HandsOver
      decide +kernel
    · unfold TapeStep.HandsOver HandsOver
      decide +kernel
  exact ⟨(h.1 hrun).1, h.2 beforeRegistration both ∅ _ _ [] rfl⟩

end EdgeConnect.Reconcile
