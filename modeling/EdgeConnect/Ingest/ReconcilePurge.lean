import EdgeConnect.Ingest.ReconcileLoops

/-!
# Departed channels are purged

The two halves of a tick in any order with replacements of the channel filter, subscriptions that come and go,
receivers that write and exit, and tasks that complete after their abort.

* `laneOf` — the venue, category and channel a receiver writes under;
* `Settled` — a draining receiver will purge a lane, or nothing drains there and nothing is held;
* `Tidy` — the invariant: every lane the filter no longer admits is settled;
* `Step.SeesOneFilter` — what the second half of a tick was handed is admitted by the filter it reads;
* `departed_channels_are_purged` — under it, a lane with no receiver and no admitted key holds nothing;
* `a_channel_outlives_its_filter` — a filter replaced between the halves leaves a channel's state behind for good.
-/

set_option autoImplicit false

namespace EdgeConnect.Reconcile

open Registry

/-! ## Lanes -/

/-- A venue, a category and a channel. -/
structure Lane where
  venue : String
  category : String
  channel : Nat
  deriving DecidableEq, Repr

def Entry.lane (e : Entry) : Lane := ⟨e.venue, e.category, e.channel⟩

/-- The lane a receiver writes under. -/
def laneOf (enabled : List Feed) (key : FeedKey) : Option Lane :=
  (channelIn enabled key).map fun channel => ⟨key.venue, key.category, channel⟩

variable {cfg : Config} {r : Reconciler} {T : Lane} {key : FeedKey}

theorem shares_iff {f : Feed} {channel : Nat} {e : Draining} : e.shares cfg.enabled f channel = true ↔
    laneOf cfg.enabled e.key = some ⟨f.venue, f.category, channel⟩ := by
  unfold Draining.shares laneOf
  rw [decide_eq_true_iff, Option.map_eq_some_iff]
  constructor
  · rintro ⟨hv, hc, hch⟩
    exact ⟨channel, hch, by rw [hv, hc]⟩
  · rintro ⟨ch, hch, heq⟩
    obtain ⟨hv, hc, rfl⟩ := Lane.mk.inj heq
    exact ⟨hv, hc, hch⟩

theorem mem_siblings {f : Feed} {channel : Nat} : key ∈ siblings cfg.enabled r f channel ↔
    key ∈ r.lastFilterAdmitted ∧ laneOf cfg.enabled key = some ⟨f.venue, f.category, channel⟩ := by
  unfold siblings laneOf
  rw [Finset.mem_filter, Option.map_eq_some_iff]
  constructor
  · rintro ⟨hmem, hv, hc, hch⟩
    exact ⟨hmem, channel, hch, by rw [hv, hc]⟩
  · rintro ⟨hmem, ch, hch, heq⟩
    obtain ⟨hv, hc, rfl⟩ := Lane.mk.inj heq
    exact ⟨hmem, hv, hc, hch⟩

/-! ## The purge -/

/-- A draining receiver writes, or wrote, under the lane. -/
def Drains (cfg : Config) (r : Reconciler) (T : Lane) : Prop :=
  ∃ e ∈ r.draining, laneOf cfg.enabled e.key = some T

/-- The filter as last read admits a key of the lane. -/
def Admitted (cfg : Config) (r : Reconciler) (T : Lane) : Prop :=
  ∃ key ∈ r.lastFilterAdmitted, laneOf cfg.enabled key = some T

/-- Nothing is held of the lane. -/
def Dark (r : Reconciler) (T : Lane) : Prop := ∀ shelf, ∀ e ∈ r.held shelf, e.lane ≠ T

/-- The lane is dark, or a receiver that still drains will purge it. -/
def Settled (cfg : Config) (r : Reconciler) (T : Lane) : Prop :=
  (∃ e ∈ r.draining, laneOf cfg.enabled e.key = some T ∧ e.purge = true) ∨ (¬ Drains cfg r T ∧ Dark r T)

/-- The entries of a lane that the purge drops from a store. -/
def drop (T : Lane) (l : List Entry) : List Entry := l.filter fun e => e.lane ≠ T

/-- What a purge does: nothing for a key without a channel, hand itself to the receivers of the lane that drain, or
drop from each store what no admitted key of the lane supplies. -/
theorem forget_cases (cfg : Config) (r : Reconciler) (key : FeedKey) :
    (laneOf cfg.enabled key = none ∧ forgetDepartingChannel cfg.enabled r key = r) ∨
      ∃ T, laneOf cfg.enabled key = some T ∧
        ((Drains cfg r T ∧ forgetDepartingChannel cfg.enabled r key = { r with
            draining := r.draining.map fun e =>
              if laneOf cfg.enabled e.key = some T then { e with purge := true } else e }) ∨
          (¬ Drains cfg r T ∧ ∃ held, forgetDepartingChannel cfg.enabled r key = { r with held } ∧
            ∀ shelf, (held shelf = r.held shelf ∧ ∃ k ∈ r.lastFilterAdmitted,
                laneOf cfg.enabled k = some T ∧ shelf.suppliedBy k.kind = true) ∨
              (held shelf = drop T (r.held shelf) ∧ ∀ k ∈ r.lastFilterAdmitted,
                laneOf cfg.enabled k = some T → shelf.suppliedBy k.kind = false))) := by
  unfold forgetDepartingChannel
  cases hpub : publisherOf cfg.enabled key with
  | none =>
    refine Or.inl ⟨?_, rfl⟩
    unfold laneOf
    rw [Option.map_eq_none_iff]
    by_contra hne
    obtain ⟨ch, hch⟩ := Option.ne_none_iff_exists'.mp hne
    obtain ⟨f, p, hfp⟩ := exists_publisherOf hch
    rw [hpub] at hfp
    cases hfp
  | some x =>
    obtain ⟨f, p⟩ := x
    have hchannel := channelIn_of_publisherOf cfg.nodup hpub
    obtain ⟨-, -, hkey⟩ := keyOf_of_publisherOf hpub
    simp only
    cases hp : p.channel with
    | none =>
      refine Or.inl ⟨?_, rfl⟩
      unfold laneOf
      rw [hchannel, hp]
      rfl
    | some channel =>
      refine Or.inr ⟨⟨f.venue, f.category, channel⟩, ?_, ?_⟩
      · unfold laneOf
        rw [hchannel, hp, ← hkey]
        rfl
      · have hany : r.draining.any (Draining.shares cfg.enabled f channel) = true ↔
            Drains cfg r ⟨f.venue, f.category, channel⟩ := by
          rw [List.any_eq_true]
          exact ⟨fun ⟨e, he, hs⟩ => ⟨e, he, shares_iff.mp hs⟩, fun ⟨e, he, hs⟩ => ⟨e, he, shares_iff.mpr hs⟩⟩
        simp only
        by_cases hd : Drains cfg r ⟨f.venue, f.category, channel⟩
        · rw [if_pos (hany.mpr hd)]
          refine Or.inl ⟨hd, ?_⟩
          congr 1
          refine List.map_congr_left fun e _ => ?_
          by_cases hs : laneOf cfg.enabled e.key = some ⟨f.venue, f.category, channel⟩
          · rw [if_pos (shares_iff.mpr hs), if_pos hs]
          · rw [if_neg (fun h => hs (shares_iff.mp h)), if_neg hs]
        · rw [if_neg (fun h => hd (hany.mp h))]
          refine Or.inr ⟨hd, _, rfl, fun shelf => ?_⟩
          by_cases hk : ∃ k ∈ siblings cfg.enabled r f channel, shelf.suppliedBy k.kind = true
          · rw [if_pos hk]
            obtain ⟨k, hmem, hsup⟩ := hk
            obtain ⟨hlast, hlane⟩ := mem_siblings.mp hmem
            exact Or.inl ⟨rfl, k, hlast, hlane, hsup⟩
          · rw [if_neg hk]
            refine Or.inr ⟨?_, fun k hlast hlane => ?_⟩
            · unfold drop
              refine List.filter_congr fun e _ => ?_
              unfold Entry.lane
              rw [Bool.eq_iff_iff, decide_eq_true_iff, decide_eq_true_iff, ne_eq, Lane.mk.injEq]
            · by_contra hsup
              exact hk ⟨k, mem_siblings.mpr ⟨hlast, hlane⟩, Bool.eq_true_of_not_eq_false hsup⟩

/-- A purge moves neither the receivers nor the filter. -/
theorem forget_keeps (cfg : Config) (r : Reconciler) (key : FeedKey) :
    (forgetDepartingChannel cfg.enabled r key).active = r.active ∧
      (forgetDepartingChannel cfg.enabled r key).lastFilterAdmitted = r.lastFilterAdmitted ∧
      (forgetDepartingChannel cfg.enabled r key).filter = r.filter ∧
      (forgetDepartingChannel cfg.enabled r key).draining.map Draining.key = r.draining.map Draining.key := by
  rcases forget_cases cfg r key with ⟨-, heq⟩ | ⟨T, -, ⟨-, heq⟩ | ⟨-, held, heq, -⟩⟩
  · rw [heq]
    exact ⟨rfl, rfl, rfl, rfl⟩
  · rw [heq]
    refine ⟨rfl, rfl, rfl, ?_⟩
    simp only
    rw [List.map_map]
    refine List.map_congr_left fun e _ => ?_
    rw [Function.comp_apply]
    split
    · rfl
    · rfl
  · rw [heq]
    exact ⟨rfl, rfl, rfl, rfl⟩

/-- A purge run for a lane without an admitted key settles it. -/
theorem settled_forget (hun : ¬ Admitted cfg r T) (hkey : laneOf cfg.enabled key = some T) :
    Settled cfg (forgetDepartingChannel cfg.enabled r key) T := by
  rcases forget_cases cfg r key with ⟨hnone, -⟩ | ⟨T', hT', hcase⟩
  · rw [hkey] at hnone
    cases hnone
  obtain rfl : T = T' := Option.some.inj (hkey.symm.trans hT')
  rcases hcase with ⟨⟨e, he, hlane⟩, heq⟩ | ⟨hd, held, heq, hheld⟩
  · rw [heq]
    refine Or.inl ⟨{ e with purge := true }, ?_, hlane, rfl⟩
    exact List.mem_map.mpr ⟨e, he, if_pos hlane⟩
  · rw [heq]
    refine Or.inr ⟨hd, fun shelf e he => ?_⟩
    have he : e ∈ held shelf := he
    rcases hheld shelf with ⟨-, k, hk, hlane, -⟩ | ⟨hdrop, -⟩
    · exact absurd ⟨k, hk, hlane⟩ hun
    · rw [hdrop] at he
      exact of_decide_eq_true (List.mem_filter.mp he).2

theorem Settled.forget (hs : Settled cfg r T) (hun : ¬ Admitted cfg r T) (key : FeedKey) :
    Settled cfg (forgetDepartingChannel cfg.enabled r key) T := by
  by_cases hkey : laneOf cfg.enabled key = some T
  · exact settled_forget hun hkey
  rcases forget_cases cfg r key with ⟨-, heq⟩ | ⟨T', hT', hcase⟩
  · rw [heq]
    exact hs
  have hne : ∀ e : Draining, laneOf cfg.enabled e.key = some T → laneOf cfg.enabled e.key ≠ some T' := by
    intro e he he'
    rw [he] at he'
    exact hkey (hT'.trans he'.symm)
  rcases hcase with ⟨-, heq⟩ | ⟨-, held, heq, hheld⟩
  · rw [heq]
    rcases hs with ⟨e, he, hlane, hpurge⟩ | ⟨hd, hdark⟩
    · exact Or.inl ⟨e, List.mem_map.mpr ⟨e, he, if_neg (hne e hlane)⟩, hlane, hpurge⟩
    · refine Or.inr ⟨?_, hdark⟩
      rintro ⟨e', he', hlane⟩
      obtain ⟨e, he, rfl⟩ := List.mem_map.mp he'
      refine hd ⟨e, he, ?_⟩
      split at hlane
      · exact hlane
      · exact hlane
  · rw [heq]
    refine hs.imp id fun ⟨hd, hdark⟩ => ⟨hd, fun shelf e he => ?_⟩
    have he : e ∈ held shelf := he
    rcases hheld shelf with ⟨hsame, -⟩ | ⟨hdrop, -⟩
    · exact hdark shelf e (hsame ▸ he)
    · rw [hdrop] at he
      exact hdark shelf e (List.mem_filter.mp he).1

/-- Settledness reads only which keys drain and for what, and what is held. -/
theorem Settled.congr {r' : Reconciler} (hs : Settled cfg r T)
    (hdraining : r'.draining.map (fun e => (e.key, e.purge)) = r.draining.map fun e => (e.key, e.purge))
    (hheld : r'.held = r.held) : Settled cfg r' T := by
  have hmem : ∀ e ∈ r.draining, ∃ e' ∈ r'.draining, e'.key = e.key ∧ e'.purge = e.purge := by
    intro e he
    have : (e.key, e.purge) ∈ r'.draining.map fun e => (e.key, e.purge) := by
      rw [hdraining]
      exact List.mem_map.mpr ⟨e, he, rfl⟩
    obtain ⟨e', he', heq⟩ := List.mem_map.mp this
    exact ⟨e', he', congrArg Prod.fst heq, congrArg Prod.snd heq⟩
  rcases hs with ⟨e, he, hlane, hpurge⟩ | ⟨hd, hdark⟩
  · obtain ⟨e', he', hk, hp⟩ := hmem e he
    exact Or.inl ⟨e', he', hk ▸ hlane, hp.trans hpurge⟩
  · refine Or.inr ⟨?_, fun shelf => hheld ▸ hdark shelf⟩
    rintro ⟨e', he', hlane⟩
    have : (e'.key, e'.purge) ∈ r.draining.map fun e => (e.key, e.purge) := by
      rw [← hdraining]
      exact List.mem_map.mpr ⟨e', he', rfl⟩
    obtain ⟨e, he, heq⟩ := List.mem_map.mp this
    have hk : e.key = e'.key := congrArg Prod.fst heq
    exact hd ⟨e, he, by rw [hk]; exact hlane⟩

/-! ## The loops -/

/-- A receiver of the lane runs. -/
def Runs (cfg : Config) (r : Reconciler) (T : Lane) : Prop :=
  ∃ key ∈ r.active.keys, laneOf cfg.enabled key = some T

/-- A receiver that is aborted for the filter settles its lane. -/
theorem abortOne_settled {departed : Finset FeedKey} (k : FeedKey)
    (hdep : ∀ key ∈ r.active.keys, laneOf cfg.enabled key = some T → key ∈ departed)
    (hs : Settled cfg r T ∨ Runs cfg r T) :
    Settled cfg (abortOne departed r k) T ∨ Runs cfg (abortOne departed r k) T := by
  unfold abortOne
  cases hk : r.active.get k with
  | none => exact hs
  | some t =>
    have hmem : k ∈ r.active.keys := FinMap.mem_keys_iff.mpr ⟨t, hk⟩
    by_cases hlane : laneOf cfg.enabled k = some T
    · refine Or.inl (Or.inl ⟨⟨k, t.finished, false, 0, k ∈ departed⟩, ?_, hlane, ?_⟩)
      · exact List.mem_append_right _ (List.mem_singleton_self _)
      · exact decide_eq_true (hdep k hmem hlane)
    · rcases hs with (⟨e, he, hl, hp⟩ | ⟨hd, hdark⟩) | ⟨k', hk', hl⟩
      · exact Or.inl (Or.inl ⟨e, List.mem_append_left _ he, hl, hp⟩)
      · refine Or.inl (Or.inr ⟨?_, hdark⟩)
        rintro ⟨e, he, hl⟩
        rcases List.mem_append.mp he with he | he
        · exact hd ⟨e, he, hl⟩
        · rw [List.mem_singleton.mp he] at hl
          exact hlane hl
      · refine Or.inr ⟨k', ?_, hl⟩
        show k' ∈ (r.active.erase k).keys
        rw [FinMap.keys_erase, Finset.mem_erase]
        exact ⟨fun heq => hlane (heq ▸ hl), hk'⟩

theorem abortAll_settled {departed : Finset FeedKey} : ∀ (l : List FeedKey) (r : Reconciler),
    (∀ key ∈ r.active.keys, laneOf cfg.enabled key = some T → key ∈ departed) →
    (Settled cfg r T ∨ Runs cfg r T) →
    Settled cfg (l.foldl (abortOne departed) r) T ∨ Runs cfg (l.foldl (abortOne departed) r) T
  | [], _, _, hs => hs
  | k :: l, r, hdep, hs => by
    refine abortAll_settled l _ (fun key hkey hlane => hdep key ?_ hlane) (abortOne_settled k hdep hs)
    obtain ⟨t, ht⟩ := FinMap.mem_keys_iff.mp hkey
    rw [abortOne_get] at ht
    split at ht
    · cases ht
    · exact FinMap.mem_keys_iff.mpr ⟨t, ht⟩

/-- `apply_feeds` settles a lane of which nothing is desired. -/
theorem applyFeeds_settled {desired departed : Finset FeedKey} {live : FeedKey → TapeLiveness}
    {o : Orders cfg.enabled} (hactive : ∀ key ∈ r.active.keys, key ∈ enabledKeys cfg.enabled)
    (hdep : ∀ key ∈ r.active.keys, laneOf cfg.enabled key = some T → key ∈ departed)
    (hdesired : ∀ key ∈ desired, laneOf cfg.enabled key ≠ some T) (hs : Settled cfg r T ∨ Runs cfg r T) :
    Settled cfg (applyFeeds desired departed live o r) T := by
  have habort := abortAll_settled (o.abort.walk (plan r.active.keys desired).2) r hdep hs
  have hshared : SameShared r ((o.abort.walk (plan r.active.keys desired).2).foldl (abortOne departed) r) :=
    foldl_sameShared abortOne_shared _ r
  rcases habort with hs' | ⟨key, hkey, hlane⟩
  · refine hs'.congr (by rw [applyFeeds_draining]) ?_
    rw [(applyFeeds_shared r).held, hshared.held]
  · exfalso
    obtain ⟨t, ht⟩ := FinMap.mem_keys_iff.mp hkey
    rw [abortAll_get] at ht
    split at ht
    · cases ht
    · rename_i hwalk
      have hmem : key ∈ r.active.keys := FinMap.mem_keys_iff.mpr ⟨t, ht⟩
      have hplan : ∀ k, k ∈ (plan r.active.keys desired).2 → k ∈ enabledKeys cfg.enabled :=
        fun k hk => hactive k (Finset.mem_sdiff.mp hk).1
      refine hwalk ((mem_walk hplan).mpr (Finset.mem_sdiff.mpr ⟨hmem, fun hd => ?_⟩))
      exact hdesired key hd hlane

theorem drainFrom_settled : ∀ (n i : Nat) (r : Reconciler), ¬ Admitted cfg r T → Settled cfg r T →
    Settled cfg (drainFrom cfg.enabled n i r) T
  | 0, _, _, _, hs => hs
  | n + 1, i, r, hun, hs => by
    unfold drainFrom
    cases hi : r.draining[i]? with
    | none => exact hs
    | some e =>
      simp only
      split
      · -- the entry goes: it settles its own lane, and no other lane loses the entry that will purge it
        have hgone : ∀ e', e' ∈ r.draining.eraseIdx i → e' ∈ r.draining := fun e' => List.mem_of_mem_eraseIdx
        by_cases hp : e.purge = true
        · rw [if_pos hp]
          have hun' : ¬ Admitted cfg { r with draining := r.draining.eraseIdx i } T := hun
          have hlast := (forget_keeps cfg { r with draining := r.draining.eraseIdx i } e.key).2.1
          refine drainFrom_settled n i _ ?_ ?_
          · unfold Admitted
            rw [hlast]
            exact hun
          · by_cases hlane : laneOf cfg.enabled e.key = some T
            · exact settled_forget hun' hlane
            · refine Settled.forget ?_ hun' e.key
              rcases hs with ⟨e', he', hl, hp'⟩ | ⟨hd, hdark⟩
              · refine Or.inl ⟨e', ?_, hl, hp'⟩
                obtain ⟨j, hj⟩ := List.mem_iff_getElem?.mp he'
                refine List.mem_eraseIdx_iff_getElem?.mpr ⟨j, ?_, hj⟩
                rintro rfl
                rw [hi] at hj
                exact hlane ((Option.some.inj hj) ▸ hl)
              · exact Or.inr ⟨fun ⟨e', he', hl⟩ => hd ⟨e', hgone e' he', hl⟩, hdark⟩
        · rw [if_neg hp]
          refine drainFrom_settled n i _ hun ?_
          rcases hs with ⟨e', he', hl, hp'⟩ | ⟨hd, hdark⟩
          · refine Or.inl ⟨e', ?_, hl, hp'⟩
            obtain ⟨j, hj⟩ := List.mem_iff_getElem?.mp he'
            refine List.mem_eraseIdx_iff_getElem?.mpr ⟨j, ?_, hj⟩
            rintro rfl
            rw [hi] at hj
            exact hp ((Option.some.inj hj) ▸ hp')
          · exact Or.inr ⟨fun ⟨e', he', hl⟩ => hd ⟨e', hgone e' he', hl⟩, hdark⟩
      · refine drainFrom_settled n (i + 1) _ hun (hs.congr ?_ rfl)
        simp only
        rw [List.map_set]
        refine List.ext_getElem? fun j => ?_
        rw [List.getElem?_set]
        by_cases hj : i = j
        · subst hj
          rw [List.getElem?_map, hi]
          split
          · split
            · rfl
            · rename_i hlen
              rw [List.length_map] at hlen
              exact absurd (List.getElem?_eq_some_iff.mp hi).1 hlen
          · rename_i hne
            exact absurd rfl hne
        · rw [if_neg hj]

theorem drainFrom_keeps (cfg : Config) : ∀ (n i : Nat) (r : Reconciler), (drainFrom cfg.enabled n i r).active = r.active ∧
    (drainFrom cfg.enabled n i r).lastFilterAdmitted = r.lastFilterAdmitted ∧
    (drainFrom cfg.enabled n i r).filter = r.filter
  | 0, _, _ => ⟨rfl, rfl, rfl⟩
  | n + 1, i, r => by
    unfold drainFrom
    split
    · exact ⟨rfl, rfl, rfl⟩
    · simp only
      split
      · rename_i e _ _
        by_cases hp : e.purge = true
        · rw [if_pos hp]
          obtain ⟨ha, hl, hf⟩ := drainFrom_keeps cfg n i
            (forgetDepartingChannel cfg.enabled { r with draining := r.draining.eraseIdx i } e.key)
          obtain ⟨ha', hl', hf', -⟩ := forget_keeps cfg { r with draining := r.draining.eraseIdx i } e.key
          exact ⟨ha.trans ha', hl.trans hl', hf.trans hf'⟩
        · rw [if_neg hp]
          exact drainFrom_keeps cfg n i _
      · exact drainFrom_keeps cfg n (i + 1) _

theorem forgetStopped_keeps (cfg : Config) (r : Reconciler) (k : FeedKey) : (forgetStopped cfg.enabled r k).active = r.active ∧
    (forgetStopped cfg.enabled r k).lastFilterAdmitted = r.lastFilterAdmitted ∧
    (forgetStopped cfg.enabled r k).filter = r.filter := by
  unfold forgetStopped
  split
  · exact ⟨rfl, rfl, rfl⟩
  · obtain ⟨ha, hl, hf, -⟩ := forget_keeps cfg r k
    exact ⟨ha, hl, hf⟩

theorem forgetAll_keeps (cfg : Config) : ∀ (l : List FeedKey) (r : Reconciler),
    (l.foldl (forgetStopped cfg.enabled) r).active = r.active ∧
      (l.foldl (forgetStopped cfg.enabled) r).lastFilterAdmitted = r.lastFilterAdmitted ∧
      (l.foldl (forgetStopped cfg.enabled) r).filter = r.filter
  | [], _ => ⟨rfl, rfl, rfl⟩
  | k :: l, r => by
    obtain ⟨ha, hl, hf⟩ := forgetAll_keeps cfg l (forgetStopped cfg.enabled r k)
    obtain ⟨ha', hl', hf'⟩ := forgetStopped_keeps cfg r k
    exact ⟨ha.trans ha', hl.trans hl', hf.trans hf'⟩

theorem admitted_congr {r' : Reconciler} (h : r'.lastFilterAdmitted = r.lastFilterAdmitted)
    (hun : ¬ Admitted cfg r T) : ¬ Admitted cfg r' T := by
  unfold Admitted
  rw [h]
  exact hun

theorem Settled.forgetStopped (hs : Settled cfg r T) (hun : ¬ Admitted cfg r T) (k : FeedKey) :
    Settled cfg (forgetStopped cfg.enabled r k) T := by
  unfold Reconcile.forgetStopped
  split
  · exact hs
  · exact hs.forget hun k

/-- The purges of stopped receivers keep a settled lane settled. -/
theorem Settled.forgetAll (hun : ¬ Admitted cfg r T) (hs : Settled cfg r T) (l : List FeedKey) :
    Settled cfg (l.foldl (Reconcile.forgetStopped cfg.enabled) r) T := by
  induction l generalizing r with
  | nil => exact hs
  | cons k l ih =>
    exact ih (admitted_congr (forgetStopped_keeps cfg r k).2.1 hun) (hs.forgetStopped hun k)

/-- They settle the lane of every departed key that has no receiver. -/
theorem settled_forgetAll (hun : ¬ Admitted cfg r T) {l : List FeedKey} (hmem : key ∈ l)
    (hstopped : r.active.contains key = false) (hlane : laneOf cfg.enabled key = some T) :
    Settled cfg (l.foldl (forgetStopped cfg.enabled) r) T := by
  induction l generalizing r with
  | nil => cases hmem
  | cons k l ih =>
    obtain ⟨ha, hl, -⟩ := forgetStopped_keeps cfg r k
    have hun' : ¬ Admitted cfg (forgetStopped cfg.enabled r k) T := admitted_congr hl hun
    rcases List.mem_cons.mp hmem with rfl | hmem
    · refine Settled.forgetAll hun' ?_ l
      unfold forgetStopped
      rw [if_neg (by rw [hstopped]; exact Bool.false_ne_true)]
      exact settled_forget hun hlane
    · exact ih hun' hmem (ha.symm ▸ hstopped)

/-! ## Whole ticks -/

/-- Receivers run only for keys that the filter as last read admits, and every other lane is settled. -/
structure Tidy (cfg : Config) (r : Reconciler) : Prop where
  running : ∀ key ∈ r.active.keys, key ∈ r.lastFilterAdmitted
  known : ∀ key ∈ r.lastFilterAdmitted, key ∈ enabledKeys cfg.enabled
  settled : ∀ T, ¬ Admitted cfg r T → Settled cfg r T

theorem mem_enabledKeys_of_admitted {enabled : List Feed} {filter : ChannelFilter}
    (h : key ∈ filterAdmitted enabled filter) : key ∈ enabledKeys enabled := by
  unfold filterAdmitted at h
  obtain ⟨f, hf, hkey⟩ := List.mem_flatMap.mp (List.mem_toFinset.mp h)
  obtain ⟨p, hp, rfl⟩ := List.mem_map.mp hkey
  refine List.mem_flatMap.mpr ⟨f, hf, List.mem_map.mpr ⟨p, ?_, rfl⟩⟩
  unfold publishersFor at hp
  split at hp
  · exact hp
  · exact (List.mem_filter.mp hp).1

/-- **A tick that sees one filter leaves every departed lane settled.** -/
theorem Tidy.applyDesired (ht : Tidy cfg r) {desired : Finset FeedKey} {live : FeedKey → TapeLiveness}
    {o : Orders cfg.enabled} (hdesired : ∀ key ∈ desired, key ∈ filterAdmitted cfg.enabled r.filter) :
    Tidy cfg (applyDesired desired live o r) := by
  unfold Reconcile.applyDesired
  simp only
  have hknown : ∀ key ∈ filterAdmitted cfg.enabled r.filter, key ∈ enabledKeys cfg.enabled :=
    fun key => mem_enabledKeys_of_admitted
  have hreaped : ∀ key ∈ (reapFinished r).active.keys, key ∈ r.lastFilterAdmitted := by
    intro key hkey
    obtain ⟨t, ht'⟩ := FinMap.mem_keys_iff.mp hkey
    refine ht.running key (FinMap.mem_keys_iff.mpr ⟨t, ?_⟩)
    unfold reapFinished at ht'
    simp only [FinMap.get_filter, Option.filter_eq_some_iff] at ht'
    exact ht'.1
  -- the filter is read once, and the purges that wait for nothing run against it
  let r₁ : Reconciler := { reapFinished r with lastFilterAdmitted := filterAdmitted cfg.enabled r.filter }
  let departed := r.lastFilterAdmitted \ filterAdmitted cfg.enabled r.filter
  show Tidy cfg (drainDeparted cfg.enabled (applyFeeds desired departed live o
    ((o.departed.walk departed).foldl (forgetStopped cfg.enabled) r₁)))
  have hdepknown : ∀ key ∈ departed, key ∈ enabledKeys cfg.enabled :=
    fun key hkey => ht.known key (Finset.mem_sdiff.mp hkey).1
  obtain ⟨hactive₂, hlast₂, -⟩ := forgetAll_keeps cfg (o.departed.walk departed) r₁
  have hsettled₂ : ∀ T, ¬ Admitted cfg r₁ T →
      Settled cfg ((o.departed.walk departed).foldl (forgetStopped cfg.enabled) r₁) T ∨ Runs cfg r₁ T := by
    intro T hun
    by_cases hruns : Runs cfg r₁ T
    · exact Or.inr hruns
    refine Or.inl ?_
    by_cases hold : Admitted cfg r T
    · obtain ⟨key, hkey, hlane⟩ := hold
      have hgone : key ∈ departed := Finset.mem_sdiff.mpr ⟨hkey, fun hin => hun ⟨key, hin, hlane⟩⟩
      refine settled_forgetAll hun ((mem_walk hdepknown).mpr hgone) ?_ hlane
      refine Bool.eq_false_iff.mpr fun hin => hruns ⟨key, ?_, hlane⟩
      exact FinMap.mem_keys_iff.mpr (FinMap.contains_eq_true.mp hin)
    · exact Settled.forgetAll hun ((ht.settled T hold).congr rfl rfl) _
  generalize (o.departed.walk departed).foldl (forgetStopped cfg.enabled) r₁ = r₂ at hactive₂ hlast₂ hsettled₂ ⊢
  -- what still runs of an unadmitted lane is aborted, and purges the lane once it has stopped
  have hrunning₂ : ∀ key ∈ r₂.active.keys, key ∈ r.lastFilterAdmitted := by
    rw [hactive₂]
    exact hreaped
  have hknown₂ : ∀ key ∈ r₂.active.keys, key ∈ enabledKeys cfg.enabled :=
    fun key hkey => ht.known key (hrunning₂ key hkey)
  have hshared : SameShared r₂ (applyFeeds desired departed live o r₂) := applyFeeds_shared r₂
  have hsettled₃ : ∀ T, ¬ Admitted cfg r₁ T → Settled cfg (applyFeeds desired departed live o r₂) T := by
    intro T hun
    refine applyFeeds_settled hknown₂ (fun key hkey hlane => ?_) (fun key hkey hlane => ?_) ?_
    · exact Finset.mem_sdiff.mpr ⟨hrunning₂ key hkey, fun hin => hun ⟨key, hin, hlane⟩⟩
    · exact hun ⟨key, hdesired key hkey, hlane⟩
    · refine (hsettled₂ T hun).imp id ?_
      rintro ⟨key, hkey, hlane⟩
      exact ⟨key, hactive₂.symm ▸ hkey, hlane⟩
  have hactive₃ : ∀ key ∈ (applyFeeds desired departed live o r₂).active.keys, key ∈ desired := by
    intro key hkey
    obtain ⟨t, ht'⟩ := FinMap.mem_keys_iff.mp hkey
    rw [applyFeeds_get hknown₂ fun k hk => hknown k (hdesired k hk)] at ht'
    split at ht'
    · assumption
    · cases ht'
  have hlast₃ : (applyFeeds desired departed live o r₂).lastFilterAdmitted = r₁.lastFilterAdmitted :=
    hshared.last.trans hlast₂
  generalize applyFeeds desired departed live o r₂ = r₃ at hsettled₃ hactive₃ hlast₃ ⊢
  unfold drainDeparted
  obtain ⟨ha, hl, -⟩ := drainFrom_keeps cfg r₃.draining.length 0 r₃
  refine ⟨?_, ?_, fun T hun => ?_⟩
  · rw [ha, hl, hlast₃]
    exact fun key hkey => hdesired key (hactive₃ key hkey)
  · rw [hl, hlast₃]
    exact hknown
  · have hun₃ : ¬ Admitted cfg r₃ T := admitted_congr hl.symm hun
    exact drainFrom_settled _ 0 r₃ hun₃ (hsettled₃ T (admitted_congr hlast₃.symm hun₃))

theorem Tidy.congr {r' : Reconciler} (ht : Tidy cfg r) (hactive : r'.active.keys = r.active.keys)
    (hlast : r'.lastFilterAdmitted = r.lastFilterAdmitted)
    (hdraining : r'.draining.map (fun e => (e.key, e.purge)) = r.draining.map fun e => (e.key, e.purge))
    (hheld : r'.held = r.held) : Tidy cfg r' := by
  refine ⟨?_, ?_, fun T hun => ?_⟩
  · rw [hactive, hlast]
    exact ht.running
  · rw [hlast]
    exact ht.known
  · exact (ht.settled T (admitted_congr hlast.symm hun)).congr hdraining hheld

theorem Tidy.init (filter : ChannelFilter) : Tidy cfg (init filter) := by
  refine ⟨nofun, nofun, fun T _ => Or.inr ⟨?_, nofun⟩⟩
  rintro ⟨e, he, -⟩
  cases he

/-- A receiver of an unadmitted lane that still writes is draining, so its lane will be purged. -/
theorem Tidy.write (ht : Tidy cfg r) (key : FeedKey) (shelf : Shelf) (id : Nat) :
    Tidy cfg (write cfg.enabled r key shelf id) := by
  unfold Reconcile.write
  cases hch : channelIn cfg.enabled key with
  | none => exact ht
  | some channel =>
    simp only
    split
    · rename_i hwrites
      have hlane : laneOf cfg.enabled key = some ⟨key.venue, key.category, channel⟩ := by
        unfold laneOf
        rw [hch]
        rfl
      refine ⟨ht.running, ht.known, fun T hun => ?_⟩
      rcases ht.settled T hun with hpurge | ⟨hd, hdark⟩
      · exact Or.inl hpurge
      · refine Or.inr ⟨hd, fun shelf' e he heq => ?_⟩
        by_cases hshelf : shelf' = shelf
        · subst hshelf
          have he : e ∈ Function.update r.held shelf' (⟨key.venue, key.category, channel, id⟩ :: r.held shelf') shelf' :=
            he
          rw [Function.update_self] at he
          rcases List.mem_cons.mp he with rfl | he
          · -- the writer's lane is the unadmitted one: it neither runs nor drains
            have heq : (⟨key.venue, key.category, channel⟩ : Lane) = T := heq
            rw [heq] at hlane
            have hw := hwrites.1
            unfold writing at hw
            rcases Bool.or_eq_true_iff.mp hw with hw | hw
            · cases hget : r.active.get key with
              | none =>
                rw [hget] at hw
                cases hw
              | some t =>
                exact hun ⟨key, ht.running key (FinMap.mem_keys_iff.mpr ⟨t, hget⟩), hlane⟩
            · obtain ⟨e', he', hk⟩ := List.any_eq_true.mp hw
              have hk := (of_decide_eq_true hk).1
              exact hd ⟨e', he', hk ▸ hlane⟩
          · exact hdark shelf' e he heq
        · have he : e ∈ Function.update r.held shelf (⟨key.venue, key.category, channel, id⟩ :: r.held shelf) shelf' :=
            he
          rw [Function.update_of_ne hshelf] at he
          exact hdark shelf' e he heq
    · exact ht

/-! ## Whole runs -/

/-- No drain reaches its bound. -/
def Step.InBound {enabled : List Feed} (r : Reconciler) : Step enabled → Prop
  | .applyDesired _ _ => ∀ e ∈ r.draining, e.finished = true ∨ e.ticksWaited < MAX_DRAIN_TICKS
  | _ => True

/-- What the second half of a tick is handed is admitted by the filter it reads. -/
def Step.SeesOneFilter {enabled : List Feed} (r : Reconciler) : Step enabled → Prop
  | .applyDesired _ _ => r.pending.getD ∅ ⊆ filterAdmitted enabled r.filter
  | _ => True

instance {enabled : List Feed} (r : Reconciler) : (s : Step enabled) → Decidable (s.InBound r)
  | .applyDesired _ _ => inferInstanceAs (Decidable (∀ e ∈ r.draining, e.finished = true ∨ _))
  | .replaceFilter _ | .computeDesired _ | .write _ _ _ | .exit _ | .complete _ => .isTrue trivial

instance {enabled : List Feed} (r : Reconciler) : (s : Step enabled) → Decidable (s.SeesOneFilter r)
  | .applyDesired _ _ => inferInstanceAs (Decidable (r.pending.getD ∅ ⊆ filterAdmitted enabled r.filter))
  | .replaceFilter _ | .computeDesired _ | .write _ _ _ | .exit _ | .complete _ => .isTrue trivial

theorem Tidy.step (ht : Tidy cfg r) {s : Step cfg.enabled} (hs : s.SeesOneFilter r) : Tidy cfg (step r s) := by
  cases s with
  | replaceFilter filter => exact ht.congr rfl rfl rfl rfl
  | computeDesired d => exact ht.congr rfl rfl rfl rfl
  | applyDesired live o =>
    simp only [Reconcile.step]
    cases hp : r.pending with
    | none => exact ht
    | some desired =>
      have hs : r.pending.getD ∅ ⊆ filterAdmitted cfg.enabled r.filter := hs
      rw [hp, Option.getD_some] at hs
      exact (ht.applyDesired fun key hkey => hs hkey).congr rfl rfl rfl rfl
  | write key shelf id => exact ht.write key shelf id
  | exit key =>
    simp only [Reconcile.step]
    cases hget : r.active.get key with
    | none => exact ht
    | some t =>
      refine ht.congr ?_ rfl rfl rfl
      show insert key r.active.keys = r.active.keys
      exact Finset.insert_eq_of_mem (FinMap.mem_keys_iff.mpr ⟨t, hget⟩)
  | complete i =>
    refine ht.congr rfl rfl ?_ rfl
    show (r.draining.modify i fun e => { e with finished := true }).map _ = _
    refine List.ext_getElem? fun j => ?_
    rw [List.getElem?_map, List.getElem?_map, List.getElem?_modify]
    cases r.draining[j]? with
    | none => rfl
    | some e => split <;> rfl

/-! ## What a tick may not purge -/

/-- A store keeps every entry that some key, admitted by the filter, supplies. -/
def KeepsAdmitted (cfg : Config) (admitted : Finset FeedKey) (r r' : Reconciler) : Prop :=
  ∀ shelf, ∀ e ∈ r.held shelf, (∃ key ∈ admitted, laneOf cfg.enabled key = some e.lane ∧
    shelf.suppliedBy key.kind = true) → e ∈ r'.held shelf

theorem keeps_refl (admitted : Finset FeedKey) (r : Reconciler) : KeepsAdmitted cfg admitted r r :=
  fun _ _ he _ => he

theorem KeepsAdmitted.trans {admitted : Finset FeedKey} {r r' r'' : Reconciler}
    (h : KeepsAdmitted cfg admitted r r') (h' : KeepsAdmitted cfg admitted r' r'') :
    KeepsAdmitted cfg admitted r r'' := fun shelf e he hk => h' shelf e (h shelf e he hk) hk

theorem forget_keepsAdmitted (cfg : Config) (r : Reconciler) (key : FeedKey) :
    KeepsAdmitted cfg r.lastFilterAdmitted r (forgetDepartingChannel cfg.enabled r key) := by
  rintro shelf e he ⟨k, hk, hlane, hsup⟩
  rcases forget_cases cfg r key with ⟨-, heq⟩ | ⟨T, -, ⟨-, heq⟩ | ⟨-, held, heq, hheld⟩⟩
  · rw [heq]
    exact he
  · rw [heq]
    exact he
  · rw [heq]
    show e ∈ held shelf
    rcases hheld shelf with ⟨hsame, -⟩ | ⟨hdrop, hnone⟩
    · rw [hsame]
      exact he
    · rw [hdrop]
      refine List.mem_filter.mpr ⟨he, decide_eq_true fun heq => ?_⟩
      rw [heq] at hlane
      rw [hnone k hk hlane] at hsup
      cases hsup

theorem forgetAll_keepsAdmitted (cfg : Config) : ∀ (l : List FeedKey) (r : Reconciler),
    KeepsAdmitted cfg r.lastFilterAdmitted r (l.foldl (forgetStopped cfg.enabled) r)
  | [], r => keeps_refl _ r
  | k :: l, r => by
    have hrest := forgetAll_keepsAdmitted cfg l (forgetStopped cfg.enabled r k)
    rw [(forgetStopped_keeps cfg r k).2.1] at hrest
    refine KeepsAdmitted.trans ?_ hrest
    unfold forgetStopped
    split
    · exact keeps_refl _ r
    · exact forget_keepsAdmitted cfg r k

theorem drainFrom_keepsAdmitted (cfg : Config) : ∀ (n i : Nat) (r : Reconciler),
    KeepsAdmitted cfg r.lastFilterAdmitted r (drainFrom cfg.enabled n i r)
  | 0, _, r => keeps_refl _ r
  | n + 1, i, r => by
    unfold drainFrom
    split
    · exact keeps_refl _ r
    · rename_i e _
      simp only
      split
      · by_cases hp : e.purge = true
        · rw [if_pos hp]
          have hforget := forget_keepsAdmitted cfg { r with draining := r.draining.eraseIdx i } e.key
          have hrest := drainFrom_keepsAdmitted cfg n i
            (forgetDepartingChannel cfg.enabled { r with draining := r.draining.eraseIdx i } e.key)
          rw [(forget_keeps cfg _ _).2.1] at hrest
          exact KeepsAdmitted.trans hforget hrest
        · rw [if_neg hp]
          exact drainFrom_keepsAdmitted cfg n i { r with draining := r.draining.eraseIdx i }
      · exact drainFrom_keepsAdmitted cfg n (i + 1)
          { r with draining := r.draining.set i { e with ticksWaited := e.ticksWaited + 1 } }

/-- No tick purges what a key that it reads as admitted supplies. -/
theorem applyDesired_keepsAdmitted (cfg : Config) (r : Reconciler) (desired : Finset FeedKey)
    (live : FeedKey → TapeLiveness) (o : Orders cfg.enabled) :
    KeepsAdmitted cfg (filterAdmitted cfg.enabled r.filter) r (applyDesired desired live o r) := by
  let r₁ : Reconciler := { reapFinished r with lastFilterAdmitted := filterAdmitted cfg.enabled r.filter }
  let departed := r.lastFilterAdmitted \ filterAdmitted cfg.enabled r.filter
  show KeepsAdmitted cfg r₁.lastFilterAdmitted r₁ (drainDeparted cfg.enabled (applyFeeds desired departed live o
    ((o.departed.walk departed).foldl (forgetStopped cfg.enabled) r₁)))
  have hfirst := forgetAll_keepsAdmitted cfg (o.departed.walk departed) r₁
  have hlast := (forgetAll_keeps cfg (o.departed.walk departed) r₁).2.1
  generalize (o.departed.walk departed).foldl (forgetStopped cfg.enabled) r₁ = r₂ at hfirst hlast ⊢
  have hshared : SameShared r₂ (applyFeeds desired departed live o r₂) := applyFeeds_shared r₂
  have hfeeds : KeepsAdmitted cfg r₁.lastFilterAdmitted r₂ (applyFeeds desired departed live o r₂) := by
    intro shelf e he _
    rw [hshared.held]
    exact he
  generalize applyFeeds desired departed live o r₂ = r₃ at hshared hfeeds ⊢
  have hdrain := drainFrom_keepsAdmitted cfg r₃.draining.length 0 r₃
  rw [hshared.last, hlast] at hdrain
  exact (hfirst.trans hfeeds).trans hdrain

/-! ## Complete ticks -/

def Step.replaces {enabled : List Feed} : Step enabled → Bool
  | .replaceFilter _ => true
  | _ => false

/-- A step of neither half of a tick. -/
def Step.between {enabled : List Feed} : Step enabled → Bool
  | .computeDesired _ | .applyDesired _ _ => false
  | _ => true

def Detected.conclusive : Detected → Bool
  | .unavailable => false
  | _ => true

/-- A whole tick has run since the filter was replaced last. -/
def CompleteTick {enabled : List Feed} (steps : List (Step enabled)) : Prop :=
  ∃ pre d mid live o post, steps = pre ++ .computeDesired d :: (mid ++ .applyDesired live o :: post) ∧
    d.conclusive = true ∧ (∀ s ∈ mid, s.between = true ∧ s.replaces = false) ∧ ∀ s ∈ post, s.replaces = false

/-- The filter in force is the one that was read last. -/
def Current (cfg : Config) (r : Reconciler) : Prop := r.lastFilterAdmitted = filterAdmitted cfg.enabled r.filter

theorem applyDesired_current (r : Reconciler) (desired : Finset FeedKey) (live : FeedKey → TapeLiveness)
    (o : Orders cfg.enabled) : Current cfg (applyDesired desired live o r) := by
  let r₁ : Reconciler := { reapFinished r with lastFilterAdmitted := filterAdmitted cfg.enabled r.filter }
  let departed := r.lastFilterAdmitted \ filterAdmitted cfg.enabled r.filter
  show Current cfg (drainDeparted cfg.enabled (applyFeeds desired departed live o
    ((o.departed.walk departed).foldl (forgetStopped cfg.enabled) r₁)))
  obtain ⟨-, hlast, hfilter⟩ := forgetAll_keeps cfg (o.departed.walk departed) r₁
  generalize (o.departed.walk departed).foldl (forgetStopped cfg.enabled) r₁ = r₂ at hlast hfilter ⊢
  have hshared : SameShared r₂ (applyFeeds desired departed live o r₂) := applyFeeds_shared r₂
  generalize applyFeeds desired departed live o r₂ = r₃ at hshared ⊢
  obtain ⟨-, hlast', hfilter'⟩ := drainFrom_keeps cfg r₃.draining.length 0 r₃
  unfold Current drainDeparted
  rw [hlast', hfilter', hshared.last, hshared.filter, hlast, hfilter]
  rfl

/-- A step that is no half of a tick touches neither the desired set nor what was read of the filter. -/
theorem step_between {s : Step cfg.enabled} (hs : s.between = true) :
    (step r s).pending = r.pending ∧ (step r s).lastFilterAdmitted = r.lastFilterAdmitted ∧
      (s.replaces = false → (step r s).filter = r.filter) := by
  cases s with
  | replaceFilter filter => exact ⟨rfl, rfl, nofun⟩
  | computeDesired d => cases hs
  | applyDesired live o => cases hs
  | write key shelf id =>
    show (write cfg.enabled r key shelf id).pending = _ ∧ (write cfg.enabled r key shelf id).lastFilterAdmitted = _ ∧
      (_ → (write cfg.enabled r key shelf id).filter = _)
    unfold write
    split
    · exact ⟨rfl, rfl, fun _ => rfl⟩
    · split
      · exact ⟨rfl, rfl, fun _ => rfl⟩
      · exact ⟨rfl, rfl, fun _ => rfl⟩
  | exit key =>
    simp only [step]
    cases r.active.get key with
    | none => exact ⟨rfl, rfl, fun _ => rfl⟩
    | some t => exact ⟨rfl, rfl, fun _ => rfl⟩
  | complete i => exact ⟨rfl, rfl, fun _ => rfl⟩

/-- Every tick but an inconclusive one reads the filter, and nothing but a replacement changes it. -/
theorem Current.step (hc : Current cfg r) {s : Step cfg.enabled} (hs : s.replaces = false) : Current cfg (step r s) := by
  by_cases hb : s.between = true
  · obtain ⟨-, hlast, hfilter⟩ := step_between (r := r) hb
    unfold Current
    rw [hlast, hfilter hs]
    exact hc
  · cases s with
    | computeDesired d => exact hc
    | applyDesired live o =>
      simp only [Reconcile.step]
      cases r.pending with
      | none => exact hc
      | some desired => exact applyDesired_current r desired live o
    | replaceFilter | write | exit | complete => exact absurd rfl hb

theorem current_of_completeTick {steps : List (Step cfg.enabled)} (h : CompleteTick steps) (r : Reconciler) :
    Current cfg ((machine cfg.enabled).exec r steps) := by
  obtain ⟨pre, d, mid, live, o, post, rfl, hd, hmid, hpost⟩ := h
  rw [Machine.exec_append, Machine.exec_cons, Machine.exec_append, Machine.exec_cons]
  generalize (machine cfg.enabled).exec r pre = r₀
  -- the desired set is still there when the second half begins
  have hpending : ∀ (l : List (Step cfg.enabled)) (r : Reconciler), (∀ s ∈ l, s.between = true ∧ s.replaces = false) →
      ((machine cfg.enabled).exec r l).pending = r.pending := by
    intro l
    induction l with
    | nil => exact fun r _ => rfl
    | cons s l ih =>
      intro r hl
      rw [Machine.exec_cons, ih _ fun s hs => hl s (List.mem_cons_of_mem _ hs)]
      exact (step_between (hl s List.mem_cons_self).1).1
  have hafter : ∀ (l : List (Step cfg.enabled)) (r : Reconciler), (∀ s ∈ l, s.replaces = false) → Current cfg r →
      Current cfg ((machine cfg.enabled).exec r l) := by
    intro l
    induction l with
    | nil => exact fun r _ hc => hc
    | cons s l ih =>
      intro r hl hc
      exact ih _ (fun s hs => hl s (List.mem_cons_of_mem _ hs)) (hc.step (hl s List.mem_cons_self))
  refine hafter post _ hpost ?_
  have hsome := hpending mid ((machine cfg.enabled).step r₀ (.computeDesired d)).1 hmid
  generalize (machine cfg.enabled).exec ((machine cfg.enabled).step r₀ (.computeDesired d)).1 mid = r₁ at hsome ⊢
  have hsome : r₁.pending = desiredFrom cfg.enabled r₀.filter d := hsome
  show Current cfg (step r₁ (.applyDesired live o))
  simp only [step]
  cases hp : r₁.pending with
  | none =>
    rw [hp] at hsome
    cases d with
    | unavailable => cases hd
    | gatingDisabled | cliMissing | subscribed => cases hsome
  | some desired => exact applyDesired_current r₁ desired live o

/-- **Departed channels are purged once their writers have stopped.**  In runs whose ticks each see one filter:
after a whole tick since the last replacement, a lane in which nothing drains and of which the filter admits no key
holds nothing (and nothing runs there); and no tick purges what a key that it reads as admitted supplies. -/
theorem departed_channels_are_purged (cfg : Config) (filter : ChannelFilter) {steps : List (Step cfg.enabled)}
    (hrun : (machine cfg.enabled).Along (fun r s => s.InBound r ∧ s.SeesOneFilter r) (init filter) steps) :
    (CompleteTick steps → ∀ T : Lane,
        ¬ Drains cfg ((machine cfg.enabled).exec (init filter) steps) T →
        (∀ key ∈ filterAdmitted cfg.enabled ((machine cfg.enabled).exec (init filter) steps).filter,
          laneOf cfg.enabled key ≠ some T) →
        ¬ Runs cfg ((machine cfg.enabled).exec (init filter) steps) T ∧
          Dark ((machine cfg.enabled).exec (init filter) steps) T) ∧
      ∀ pre live o post, steps = pre ++ .applyDesired live o :: post →
        KeepsAdmitted cfg (filterAdmitted cfg.enabled ((machine cfg.enabled).exec (init filter) pre).filter)
          ((machine cfg.enabled).exec (init filter) pre)
          ((machine cfg.enabled).exec (init filter) (pre ++ [.applyDesired live o])) := by
  refine ⟨fun htick T hdrains hfilter => ?_, fun pre live o post heq => ?_⟩
  · have ht : Tidy cfg ((machine cfg.enabled).exec (init filter) steps) :=
      Machine.along_rule (fun _ _ hok ht => ht.step hok.2) steps _ hrun (.init filter)
    have hcurrent := current_of_completeTick htick (init filter)
    generalize (machine cfg.enabled).exec (init filter) steps = r at ht hcurrent hdrains hfilter ⊢
    have hun : ¬ Admitted cfg r T := by
      rintro ⟨key, hkey, hlane⟩
      rw [hcurrent] at hkey
      exact hfilter key hkey hlane
    refine ⟨?_, ?_⟩
    · rintro ⟨key, hkey, hlane⟩
      exact hun ⟨key, ht.running key hkey, hlane⟩
    · rcases ht.settled T hun with ⟨e, he, hlane, -⟩ | ⟨-, hdark⟩
      · exact absurd ⟨e, he, hlane⟩ hdrains
      · exact hdark
  · rw [Machine.exec_append]
    generalize (machine cfg.enabled).exec (init filter) pre = r
    show KeepsAdmitted cfg _ r (step r (.applyDesired live o))
    simp only [step]
    cases r.pending with
    | none => exact keeps_refl _ r
    | some desired => exact applyDesired_keepsAdmitted cfg r desired live o

/-! ## A filter replaced between the halves of a tick -/

/-- A market-by-price row with a port for each of two channels. -/
def sportsRow : Feed where
  venue := "KALSHI"
  category := "sports"
  code := "edge-kalshi-sports-mbp"
  kind := .marketByPrice
  group := 0
  publishers := [⟨.threePort 30010 40010 50010, some 10, none⟩, ⟨.threePort 30011 40011 50011, some 11, none⟩]
  emitTrades := true
  arbitration := .sticky
  sharedBatchId := false
  mirrorOffset := none
  sourceId := none

def sports : Config where
  rows := [sportsRow]
  enabled := [sportsRow]
  checked := by rfl
  selected := ⟨List.Subperm.refl _, fun f hf => ⟨f, hf, rfl, List.Sublist.refl _⟩⟩

def sportsKey (channel : Nat) : FeedKey := ⟨"KALSHI", "sports", .marketByPrice, 30000 + channel⟩

def sportsOrder : Order sports.enabled where
  keys := [sportsKey 10, sportsKey 11]
  nodup := by decide
  complete := by decide

def sportsOrders : Orders sports.enabled := ⟨sportsOrder, sportsOrder, sportsOrder, sportsOrder, sportsOrder⟩

/-- The filter that admits channel 11 of the row only. -/
def onlyEleven : ChannelFilter := (∅ : ChannelFilter).insert "edge-kalshi-sports-mbp" {11}

def sportsTick : List (Step sports.enabled) :=
  [.computeDesired .gatingDisabled, .applyDesired (fun _ => .up) sportsOrders]

/-- Channel 10 leaves the filter between the two halves of the first tick; its receiver writes, is aborted by the
second tick, and has drained by the third. -/
def narrowedMidTick : List (Step sports.enabled) :=
  [.computeDesired .gatingDisabled, .replaceFilter onlyEleven, .applyDesired (fun _ => .up) sportsOrders,
    .write (sportsKey 10) .catalog 7] ++ sportsTick ++ .complete 0 :: sportsTick

/-- **A channel outlives its filter.**  Its key was never among those the filter was read to admit, so its departure
is never seen: nothing runs or drains there and the filter does not admit it, yet the catalog holds it for good. -/
theorem a_channel_outlives_its_filter :
    (machine sports.enabled).Along (fun r s => s.InBound r) (init ∅) narrowedMidTick ∧ CompleteTick narrowedMidTick ∧
      ¬ Drains sports ((machine sports.enabled).exec (init ∅) narrowedMidTick) ⟨"KALSHI", "sports", 10⟩ ∧
      ¬ Runs sports ((machine sports.enabled).exec (init ∅) narrowedMidTick) ⟨"KALSHI", "sports", 10⟩ ∧
      (∀ key ∈ filterAdmitted sports.enabled ((machine sports.enabled).exec (init ∅) narrowedMidTick).filter,
        laneOf sports.enabled key ≠ some ⟨"KALSHI", "sports", 10⟩) ∧
      ¬ Dark ((machine sports.enabled).exec (init ∅) narrowedMidTick) ⟨"KALSHI", "sports", 10⟩ := by
  refine ⟨?_, ?_, ?_, ?_, ?_, ?_⟩
  · exact ⟨trivial, trivial, by decide +kernel, trivial, trivial, by decide +kernel, trivial, trivial,
      by decide +kernel, trivial⟩
  · exact ⟨narrowedMidTick.take 7, .gatingDisabled, [], fun _ => .up, sportsOrders, [], rfl, rfl, nofun, nofun⟩
  · have hnone : ((machine sports.enabled).exec (init ∅) narrowedMidTick).draining = [] := by decide +kernel
    rintro ⟨e, he, -⟩
    rw [hnone] at he
    cases he
  · unfold Runs
    decide +kernel
  · decide +kernel
  · intro hdark
    exact hdark .catalog ⟨"KALSHI", "sports", 10, 7⟩ (by decide +kernel) rfl

/-- Channel 10 leaves the filter between two ticks. -/
def narrowedBetweenTicks : List (Step sports.enabled) :=
  sportsTick ++ [.write (sportsKey 10) .catalog 7, .replaceFilter onlyEleven] ++ sportsTick ++ .complete 0 :: sportsTick

/-- A filter narrowed between two ticks: the channel's entry goes once its receiver has stopped. -/
theorem channel_purged_after_its_filter :
    (((machine sports.enabled).exec (init ∅) (narrowedBetweenTicks.take 6)).held .catalog).length = 1 ∧
      Dark ((machine sports.enabled).exec (init ∅) narrowedBetweenTicks) ⟨"KALSHI", "sports", 10⟩ := by
  have hrun : (machine sports.enabled).Along (fun r s => s.InBound r ∧ s.SeesOneFilter r) (init ∅)
      narrowedBetweenTicks :=
    ⟨⟨trivial, trivial⟩, ⟨by decide +kernel, by decide +kernel⟩, ⟨trivial, trivial⟩, ⟨trivial, trivial⟩,
      ⟨trivial, trivial⟩, ⟨by decide +kernel, by decide +kernel⟩, ⟨trivial, trivial⟩, ⟨trivial, trivial⟩,
      ⟨by decide +kernel, by decide +kernel⟩, trivial⟩
  have htick : CompleteTick narrowedBetweenTicks :=
    ⟨narrowedBetweenTicks.take 7, .gatingDisabled, [], fun _ => .up, sportsOrders, [], rfl, rfl, nofun, nofun⟩
  refine ⟨by decide +kernel, ((departed_channels_are_purged sports ∅ hrun).1 htick _ ?_ (by decide +kernel)).2⟩
  have hnone : ((machine sports.enabled).exec (init ∅) narrowedBetweenTicks).draining = [] := by decide +kernel
  rintro ⟨e, he, -⟩
  rw [hnone] at he
  cases he

end EdgeConnect.Reconcile
