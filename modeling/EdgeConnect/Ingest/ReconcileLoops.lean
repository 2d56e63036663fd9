import EdgeConnect.Ingest.Reconcile

/-!
# The loops of a tick

* `Config` — the rows a process runs, which name each key once: `channelIn_of_publisherOf`;
* `abortAll_get`, `publishAll_get`, `spawnAll_get` — what each loop of `apply_feeds` makes of a receiver;
* `applyFeeds_get` — after `apply_feeds` the desired receivers run, each with the flag of its universe's owner.
-/

set_option autoImplicit false

namespace EdgeConnect.Reconcile

open Registry

/-- The rows a process runs: some of a checked document. -/
structure Config where
  rows : List Feed
  enabled : List Feed
  checked : checkCrossRowInvariants rows = .ok ()
  selected : Selected rows enabled

theorem Config.nodup (cfg : Config) : (cfg.enabled.map Feed.row).Nodup := by
  obtain ⟨l, hperm, hsub⟩ := cfg.selected.once
  exact hperm.nodup_iff.mp ((rows_nodup cfg.checked).sublist hsub)

/-! ## Keys and lanes -/

section Keys

variable {enabled : List Feed} {key : FeedKey} {f : Feed} {p : FeedPublisher}

theorem row_eq_of_keyOf {g : Feed} {q : FeedPublisher} (h : keyOf f p = keyOf g q) : f.row = g.row := by
  unfold keyOf at h
  unfold Feed.row
  rw [FeedKey.mk.injEq] at h
  rw [h.1, h.2.1, h.2.2.1]

theorem keyOf_of_publisherOf (h : publisherOf enabled key = some (f, p)) : f ∈ enabled ∧ p ∈ f.publishers ∧
    keyOf f p = key := by
  unfold publisherOf at h
  obtain ⟨g, hg, hfound⟩ := List.exists_of_findSome?_eq_some h
  obtain ⟨q, hq, heq⟩ := Option.map_eq_some_iff.mp hfound
  cases heq
  exact ⟨hg, List.mem_of_find?_eq_some hq, by simpa using List.find?_some hq⟩

/-- With each row named once, a key has the channel of the one publisher it names. -/
theorem channelIn_of_publisherOf (hn : (enabled.map Feed.row).Nodup) (h : publisherOf enabled key = some (f, p)) :
    channelIn enabled key = p.channel := by
  induction enabled with
  | nil => cases h
  | cons g rest ih =>
    unfold publisherOf at h
    unfold channelIn
    rw [List.findSome?_cons] at h ⊢
    rw [List.map_cons, List.nodup_cons] at hn
    cases hfind : g.publishers.find? fun p => keyOf g p = key with
    | none =>
      rw [hfind] at h
      exact ih hn.2 h
    | some q =>
      rw [hfind] at h
      cases h
      cases hq : p.channel with
      | some channel => simp [hq]
      | none =>
        have hrest : rest.findSome? (fun f => (f.publishers.find? fun p => keyOf f p = key).bind
            FeedPublisher.channel) = none := by
          rw [List.findSome?_eq_none_iff]
          intro f' hf'
          rw [Option.bind_eq_none_iff]
          intro q' hq'
          have hkey : keyOf f' q' = key := by simpa using List.find?_some hq'
          have hkey' : keyOf f p = key := by simpa using List.find?_some hfind
          have hrow := row_eq_of_keyOf (hkey.trans hkey'.symm)
          exact absurd (List.mem_map.mpr ⟨f', hf', hrow⟩) hn.1
        simp only [Option.bind_some, hq]
        exact hrest

theorem exists_publisherOf {channel : Nat} (h : channelIn enabled key = some channel) :
    ∃ f p, publisherOf enabled key = some (f, p) := by
  cases hp : publisherOf enabled key with
  | some x => exact ⟨x.1, x.2, rfl⟩
  | none =>
    unfold publisherOf at hp
    rw [List.findSome?_eq_none_iff] at hp
    unfold channelIn at h
    obtain ⟨g, hg, hfound⟩ := List.exists_of_findSome?_eq_some h
    obtain ⟨q, hq, -⟩ := Option.bind_eq_some_iff.mp hfound
    have := hp g hg
    rw [hq] at this
    cases this

end Keys

/-! ## One loop after the other -/

section Loops

variable {enabled : List Feed} {r : Reconciler} {key : FeedKey} {owners : FinMap Universe FeedKey}
  {departed : Finset FeedKey}

theorem mem_walk {o : Order enabled} {s : Finset FeedKey} (hs : ∀ key ∈ s, key ∈ enabledKeys enabled) :
    key ∈ o.walk s ↔ key ∈ s := by
  unfold Order.walk
  rw [List.mem_filter, decide_eq_true_iff]
  exact ⟨fun h => h.2, fun h => ⟨o.complete key (hs key h), h⟩⟩

theorem abortOne_get (k : FeedKey) : (abortOne departed r k).active.get key =
    if key = k then none else r.active.get key := by
  unfold abortOne
  cases hk : r.active.get k with
  | none =>
    by_cases heq : key = k
    · rw [if_pos heq, heq]
      exact hk
    · rw [if_neg heq]
  | some t => exact FinMap.get_erase _ _ _

theorem abortAll_get (l : List FeedKey) : ∀ r : Reconciler, (l.foldl (abortOne departed) r).active.get key =
    if key ∈ l then none else r.active.get key := by
  induction l with
  | nil => exact fun r => rfl
  | cons k l ih =>
    intro r
    rw [List.foldl_cons, ih, abortOne_get]
    by_cases hl : key ∈ l
    · rw [if_pos hl, if_pos (List.mem_cons_of_mem k hl)]
    · rw [if_neg hl]
      by_cases hk : key = k
      · rw [if_pos hk, if_pos (hk ▸ List.mem_cons_self)]
      · rw [if_neg hk, if_neg fun h => (List.mem_cons.mp h).elim hk hl]

/-- Everything but the receivers and the draining ones. -/
structure SameShared (r r' : Reconciler) : Prop where
  filter : r'.filter = r.filter
  pending : r'.pending = r.pending
  last : r'.lastFilterAdmitted = r.lastFilterAdmitted
  held : r'.held = r.held

theorem SameShared.refl (r : Reconciler) : SameShared r r := ⟨rfl, rfl, rfl, rfl⟩

theorem SameShared.trans {r r' r'' : Reconciler} (h : SameShared r r') (h' : SameShared r' r'') :
    SameShared r r'' :=
  ⟨h'.filter.trans h.filter, h'.pending.trans h.pending, h'.last.trans h.last, h'.held.trans h.held⟩

theorem foldl_sameShared {f : Reconciler → FeedKey → Reconciler} (hf : ∀ r k, SameShared r (f r k)) :
    ∀ (l : List FeedKey) (r : Reconciler), SameShared r (l.foldl f r)
  | [], r => .refl r
  | k :: l, r => (hf r k).trans (foldl_sameShared hf l (f r k))

theorem abortOne_shared (r : Reconciler) (k : FeedKey) : SameShared r (abortOne departed r k) := by
  unfold abortOne
  split
  · exact .refl r
  · exact ⟨rfl, rfl, rfl, rfl⟩

theorem publishOne_shared (r : Reconciler) (k : FeedKey) : SameShared r (publishOne enabled owners r k) := by
  unfold publishOne
  split
  · exact .refl r
  · exact ⟨rfl, rfl, rfl, rfl⟩

theorem spawnOne_shared (r : Reconciler) (k : FeedKey) : SameShared r (spawnOne enabled owners r k) := by
  unfold spawnOne
  split
  · exact .refl r
  · exact ⟨rfl, rfl, rfl, rfl⟩

theorem publishOne_draining (r : Reconciler) (k : FeedKey) :
    (publishOne enabled owners r k).draining = r.draining := by
  unfold publishOne
  split <;> rfl

theorem spawnOne_draining (r : Reconciler) (k : FeedKey) : (spawnOne enabled owners r k).draining = r.draining := by
  unfold spawnOne
  split <;> rfl

theorem foldl_draining {f : Reconciler → FeedKey → Reconciler} (hf : ∀ r k, (f r k).draining = r.draining) :
    ∀ (l : List FeedKey) (r : Reconciler), (l.foldl f r).draining = r.draining
  | [], _ => rfl
  | k :: l, r => (foldl_draining hf l (f r k)).trans (hf r k)

/-- The flag a receiver is given. -/
def want (enabled : List Feed) (owners : FinMap Universe FeedKey) (key : FeedKey) : Bool :=
  ownsOn owners key (channelIn enabled key)

theorem publishOne_get (k : FeedKey) : (publishOne enabled owners r k).active.get key =
    (r.active.get key).map fun t => if key = k then { t with tape := want enabled owners key } else t := by
  unfold publishOne
  cases hk : r.active.get k with
  | none =>
    by_cases heq : key = k
    · rw [heq, hk]
      rfl
    · simp [heq]
  | some t =>
    simp only
    rw [FinMap.get_insert]
    by_cases heq : key = k
    · subst heq
      rw [if_pos rfl, hk]
      simp [want]
    · simp [heq]

theorem publishAll_get (l : List FeedKey) : ∀ r : Reconciler,
    (l.foldl (publishOne enabled owners) r).active.get key =
      (r.active.get key).map fun t => if key ∈ l then { t with tape := want enabled owners key } else t := by
  induction l with
  | nil =>
    intro r
    simp
  | cons k l ih =>
    intro r
    rw [List.foldl_cons, ih, publishOne_get, Option.map_map]
    cases r.active.get key with
    | none => rfl
    | some t =>
      simp only [Option.map_some, Function.comp_apply, List.mem_cons]
      by_cases hl : key ∈ l
      · by_cases hk : key = k
        · simp [hk]
        · simp [hl, hk]
      · simp [hl]

theorem spawnOne_get (hn : (enabled.map Feed.row).Nodup) (k : FeedKey) :
    (spawnOne enabled owners r k).active.get key =
      if key = k ∧ (publisherOf enabled key).isSome then some ⟨false, want enabled owners key⟩
      else r.active.get key := by
  unfold spawnOne
  cases hk : publisherOf enabled k with
  | none =>
    rw [if_neg]
    rintro ⟨rfl, hsome⟩
    rw [hk] at hsome
    cases hsome
  | some x =>
    obtain ⟨f, p⟩ := x
    simp only
    rw [FinMap.get_insert]
    by_cases heq : key = k
    · subst heq
      rw [if_pos rfl, if_pos ⟨rfl, by rw [hk]; rfl⟩]
      unfold want
      rw [channelIn_of_publisherOf hn hk]
    · rw [if_neg heq, if_neg fun h => heq h.1]

theorem spawnAll_get (hn : (enabled.map Feed.row).Nodup) (l : List FeedKey) : ∀ r : Reconciler,
    (l.foldl (spawnOne enabled owners) r).active.get key =
      if key ∈ l ∧ (publisherOf enabled key).isSome then some ⟨false, want enabled owners key⟩
      else r.active.get key := by
  induction l with
  | nil =>
    intro r
    simp
  | cons k l ih =>
    intro r
    rw [List.foldl_cons, ih, spawnOne_get hn]
    by_cases hp : (publisherOf enabled key).isSome = true
    · by_cases hl : key ∈ l
      · simp [hl, hp]
      · by_cases hk : key = k
        · subst hk
          simp [hl, hp]
        · simp [hl, hk]
    · simp [hp]

theorem publisherOf_isSome (hkey : key ∈ enabledKeys enabled) : (publisherOf enabled key).isSome = true := by
  unfold enabledKeys at hkey
  obtain ⟨f, hf, hkey⟩ := List.mem_flatMap.mp hkey
  obtain ⟨p, hp, rfl⟩ := List.mem_map.mp hkey
  unfold publisherOf
  rw [List.findSome?_isSome_iff]
  refine ⟨f, hf, ?_⟩
  rw [Option.isSome_map, List.find?_isSome]
  exact ⟨p, hp, decide_eq_true rfl⟩

end Loops

section Feeds

variable {cfg : Config} {r : Reconciler} {key : FeedKey} {desired departed : Finset FeedKey}
  {live : FeedKey → TapeLiveness} {o : Orders cfg.enabled}

theorem applyFeeds_shared (r : Reconciler) : SameShared r (applyFeeds desired departed live o r) := by
  have habort : SameShared r ((o.abort.walk (plan r.active.keys desired).2).foldl (abortOne departed) r) :=
    foldl_sameShared abortOne_shared _ r
  refine habort.trans (SameShared.trans ?_ (foldl_sameShared spawnOne_shared _ _))
  exact foldl_sameShared publishOne_shared _ _

theorem applyFeeds_draining (r : Reconciler) : (applyFeeds desired departed live o r).draining =
    ((o.abort.walk (plan r.active.keys desired).2).foldl (abortOne departed) r).draining := by
  unfold applyFeeds
  simp only
  rw [foldl_draining spawnOne_draining, foldl_draining publishOne_draining]

/-- The abort loop leaves the receivers that are desired. -/
theorem aborted_get (hactive : ∀ key ∈ r.active.keys, key ∈ enabledKeys cfg.enabled) :
    ((o.abort.walk (plan r.active.keys desired).2).foldl (abortOne departed) r).active.get key =
      if key ∈ desired then r.active.get key else none := by
  have habort : ∀ k, k ∈ (plan r.active.keys desired).2 → k ∈ enabledKeys cfg.enabled :=
    fun k hk => hactive k (Finset.mem_sdiff.mp hk).1
  have hwalk : key ∈ o.abort.walk (plan r.active.keys desired).2 ↔ key ∈ r.active.keys ∧ key ∉ desired :=
    (mem_walk habort).trans Finset.mem_sdiff
  rw [abortAll_get]
  by_cases hd : key ∈ desired
  · rw [if_neg fun h => (hwalk.mp h).2 hd, if_pos hd]
  · rw [if_neg hd]
    split
    · rfl
    · rename_i hk
      rw [← FinMap.notMem_keys_iff]
      exact fun hmem => hk (hwalk.mpr ⟨hmem, hd⟩)

/-- **After `apply_feeds` the desired receivers run, each with the flag of its universe's owner**: those that ran
keep their tasks, the others are new. -/
theorem applyFeeds_get (hactive : ∀ key ∈ r.active.keys, key ∈ enabledKeys cfg.enabled)
    (hdesired : ∀ key ∈ desired, key ∈ enabledKeys cfg.enabled) :
    (applyFeeds desired departed live o r).active.get key =
      if key ∈ desired then
        some ⟨(r.active.get key).any Receiver.finished, want cfg.enabled (ownersOf desired live o) key⟩
      else none := by
  unfold applyFeeds
  simp only
  have hspawn : ∀ k, k ∈ (plan r.active.keys desired).1 → k ∈ enabledKeys cfg.enabled :=
    fun k hk => hdesired k (Finset.mem_sdiff.mp hk).1
  have hleft : ∀ k, ((o.abort.walk (plan r.active.keys desired).2).foldl (abortOne departed) r).active.get k =
      if k ∈ desired then r.active.get k else none := fun k => aborted_get hactive
  generalize (o.abort.walk (plan r.active.keys desired).2).foldl (abortOne departed) r = r₁ at hleft ⊢
  have hknown : ∀ k ∈ r₁.active.keys, k ∈ enabledKeys cfg.enabled := by
    intro k hk
    obtain ⟨t, ht⟩ := FinMap.mem_keys_iff.mp hk
    rw [hleft] at ht
    split at ht
    · rename_i hd
      exact hdesired k hd
    · cases ht
  have hnew : key ∈ o.spawn.walk (plan r.active.keys desired).1 ↔ key ∈ desired ∧ key ∉ r.active.keys :=
    (mem_walk hspawn).trans Finset.mem_sdiff
  rw [spawnAll_get cfg.nodup, publishAll_get, hleft]
  by_cases hd : key ∈ desired
  · rw [if_pos hd, if_pos hd]
    cases hget : r.active.get key with
    | none =>
      rw [if_pos ⟨hnew.mpr ⟨hd, FinMap.notMem_keys_iff.mpr hget⟩, publisherOf_isSome (hdesired key hd)⟩]
      rfl
    | some t =>
      have hmem : key ∈ r.active.keys := FinMap.mem_keys_iff.mpr ⟨t, hget⟩
      have hmem₁ : key ∈ r₁.active.keys := by
        rw [FinMap.mem_keys_iff, hleft, if_pos hd]
        exact ⟨t, hget⟩
      rw [if_neg fun h => (hnew.mp h.1).2 hmem, Option.map_some, if_pos ((mem_walk hknown).mpr hmem₁)]
      rfl
  · rw [if_neg hd, if_neg fun h => hd (hnew.mp h.1).1, if_neg hd]
    rfl

end Feeds

end EdgeConnect.Reconcile
