import EdgeConnect.Ingest.RegistryDocument

/-!
# What an accepted registry document is

* `publishedSetEntries_spec`, `expand_spec` — a derived row has one publisher for each id of its published set,
  ascending, on the base of each role and the id;
* `feedsFrom_ok`, `build_ok` — a document is accepted when each row is and the rows pass the checks that span them;
* `Sound`, `build_sound` — what holds of the rows of an accepted document, and that their order does not matter;
* `Faithful`, `build_faithful_iff` — when the channels of a mirrored row are told from those of its mirror.
-/

set_option autoImplicit false

namespace EdgeConnect.Registry

open Sources Text

/-! ## The published set -/

/-- Whether an entry of a published set lists an id. -/
def ChannelSpec.Lists : ChannelSpec → U8 → Prop
  | .range lo hi, n => lo ≤ n ∧ n ≤ hi
  | .id i _, n => i = n

theorem mem_keys_foldl_span {l : List U8} {m : FinMap U8 (Option String)} {id : U8} :
    id ∈ (l.foldl (fun m id => if m.contains id then m else m.insert id none) m).keys ↔ id ∈ m.keys ∨ id ∈ l := by
  induction l generalizing m with
  | nil => simp
  | cons i l ih =>
    rw [List.foldl_cons, ih, List.mem_cons]
    by_cases hi : m.contains i = true
    · rw [if_pos hi]
      have hmem : i ∈ m.keys := FinMap.mem_keys_iff.mpr (FinMap.contains_eq_true.mp hi)
      constructor
      · rintro (h | h)
        · exact .inl h
        · exact .inr (.inr h)
      · rintro (h | rfl | h)
        · exact .inl h
        · exact .inl hmem
        · exact .inr h
    · rw [if_neg hi, FinMap.keys_insert, Finset.mem_insert]
      tauto

/-- One entry adds the ids it lists. -/
theorem mergeSpec_keys {venue : String} {m m' : FinMap U8 (Option String)} {spec : ChannelSpec}
    (h : mergeSpec venue m spec = .ok m') (id : U8) : id ∈ m'.keys ↔ id ∈ m.keys ∨ spec.Lists id := by
  cases spec with
  | range lo hi =>
    unfold mergeSpec at h
    dsimp only at h
    split_ifs at h
    cases h
    rw [mem_keys_foldl_span]
    simp [ChannelSpec.Lists]
  | id i label =>
    have hinsert : ∀ label, id ∈ (m.insert i label).keys ↔ id ∈ m.keys ∨ i = id := fun label => by
      rw [FinMap.keys_insert, Finset.mem_insert, or_comm, eq_comm]
    unfold mergeSpec at h
    dsimp only at h
    cases hget : m.get i with
    | none =>
      rw [hget] at h
      cases h
      exact hinsert label
    | some existing =>
      rw [hget] at h
      cases existing with
      | none =>
        cases h
        exact hinsert label
      | some kept =>
        cases h
        refine ⟨.inl, ?_⟩
        rintro (hmem | rfl)
        · exact hmem
        · exact FinMap.mem_keys_iff.mpr ⟨_, hget⟩

theorem mergeSpecs_keys {venue : String} {m m' : FinMap U8 (Option String)} {specs : List ChannelSpec}
    (h : mergeSpecs venue m specs = .ok m') (id : U8) :
    id ∈ m'.keys ↔ id ∈ m.keys ∨ ∃ spec ∈ specs, spec.Lists id := by
  induction specs generalizing m with
  | nil =>
    cases h
    simp
  | cons spec specs ih =>
    unfold mergeSpecs at h
    cases hspec : mergeSpec venue m spec with
    | error e =>
      rw [hspec] at h
      cases h
    | ok m₁ =>
      rw [hspec] at h
      rw [ih h, mergeSpec_keys hspec, List.exists_mem_cons_iff, or_assoc]

theorem mem_publishedEntries {m : FinMap U8 (Option String)} {id : U8} :
    id ∈ (publishedEntries m).map Prod.fst ↔ id ∈ m.keys := by
  unfold publishedEntries
  rw [FinMap.mem_keys_iff, List.mem_map]
  constructor
  · rintro ⟨e, he, rfl⟩
    obtain ⟨i, -, hi⟩ := List.mem_filterMap.mp he
    obtain ⟨label, hlabel, rfl⟩ := Option.map_eq_some_iff.mp hi
    exact ⟨label, hlabel⟩
  · rintro ⟨label, hlabel⟩
    exact ⟨(id, label), List.mem_filterMap.mpr ⟨id, List.mem_finRange id, by rw [hlabel]; rfl⟩, rfl⟩

theorem publishedEntries_pairwise (m : FinMap U8 (Option String)) :
    (publishedEntries m).Pairwise fun a b => a.1 < b.1 := by
  unfold publishedEntries
  rw [List.pairwise_filterMap]
  refine (List.pairwise_lt_finRange 256).imp fun {i j} hij a ha b hb => ?_
  obtain ⟨_, -, rfl⟩ := Option.map_eq_some_iff.mp ha
  obtain ⟨_, -, rfl⟩ := Option.map_eq_some_iff.mp hb
  exact hij

/-- The published set is the union of what its entries list, each id once and ascending. -/
theorem publishedSetEntries_spec {row : FeedRow} {channels : List ChannelSpec} {entries : List (U8 × Option String)}
    (h : publishedSetEntries row channels = .ok entries) :
    (entries.map Prod.fst).Pairwise (· < ·) ∧ ∀ id, id ∈ entries.map Prod.fst ↔ ∃ spec ∈ channels, spec.Lists id := by
  unfold publishedSetEntries at h
  cases hmerged : mergeSpecs row.venue ∅ channels with
  | error e =>
    rw [hmerged] at h
    cases h
  | ok merged =>
    rw [hmerged] at h
    dsimp only at h
    split_ifs at h
    cases h
    refine ⟨List.pairwise_map.mpr (publishedEntries_pairwise merged), fun id => ?_⟩
    rw [mem_publishedEntries, mergeSpecs_keys hmerged, FinMap.keys_empty]
    simp

/-- A publisher of one channel: every port role on its base and the id, and no port past 16 bits. -/
structure Derives (ports : PortBlock) (id : U8) (p : FeedPublisher) : Prop where
  channel : p.channel = some id.val
  mktdata : p.ports.mktdata = ports.mktdata.val + id.val
  refdata : p.ports.refdata = ports.refdata.val + id.val
  snapshot : p.ports.snapshot = ports.snapshot.map fun base => base.val + id.val
  fits : ∀ port ∈ p.ports.all, port < 65536

theorem rolePort_ok {venue : String} {id : U8} {base : U16} {port : Nat} (h : rolePort venue id base = .ok port) :
    port = base.val + id.val ∧ port < 65536 := by
  unfold rolePort at h
  split_ifs at h with hfits
  cases h
  exact ⟨rfl, hfits⟩

theorem snapshotPort_ok {venue : String} {id : U8} {base : Option U16} {port : Option Nat}
    (h : snapshotPort venue id base = .ok port) :
    (port = base.map fun base => base.val + id.val) ∧ ∀ p ∈ port, p < 65536 := by
  cases base with
  | none =>
    cases h
    exact ⟨rfl, nofun⟩
  | some base =>
    unfold snapshotPort at h
    dsimp only at h
    cases hport : rolePort venue id base with
    | error e =>
      rw [hport] at h
      cases h
    | ok p =>
      rw [hport] at h
      cases h
      obtain ⟨rfl, hfits⟩ := rolePort_ok hport
      exact ⟨rfl, fun p hp => Option.some.inj hp ▸ hfits⟩

theorem channelPublisher_derives {venue : String} {b : PortBlock} {e : U8 × Option String} {p : FeedPublisher}
    (h : channelPublisher venue b e = .ok p) : Derives b e.1 p := by
  obtain ⟨mktdata, hmktdata, h⟩ := bind_eq_ok h
  obtain ⟨refdata, hrefdata, h⟩ := bind_eq_ok h
  obtain ⟨snapshot, hsnapshot, h⟩ := bind_eq_ok h
  cases h
  obtain ⟨rfl, hm⟩ := rolePort_ok hmktdata
  obtain ⟨rfl, hr⟩ := rolePort_ok hrefdata
  obtain ⟨hs, hfits⟩ := snapshotPort_ok hsnapshot
  have hmkt : ∀ snapshot, (ports (b.mktdata.val + e.1.val) (b.refdata.val + e.1.val) snapshot).all =
      (b.mktdata.val + e.1.val) :: (b.refdata.val + e.1.val) :: snapshot.toList := by
    rintro (_ | _) <;> rfl
  have hsnap : ∀ snapshot, (ports (b.mktdata.val + e.1.val) (b.refdata.val + e.1.val) snapshot).snapshot = snapshot := by
    rintro (_ | _) <;> rfl
  refine ⟨rfl, ?_, ?_, (hsnap snapshot).trans hs, ?_⟩
  · cases snapshot <;> rfl
  · cases snapshot <;> rfl
  · rw [hmkt]
    simp only [List.forall_mem_cons]
    exact ⟨hm, hr, fun p hp => hfits p (Option.mem_toList.mp hp)⟩

theorem channelPublishers_derives {venue : String} {b : PortBlock} {es : List (U8 × Option String)}
    {ps : List FeedPublisher} (h : channelPublishers venue b es = .ok ps) :
    List.Forall₂ (Derives b) (es.map Prod.fst) ps := by
  induction es generalizing ps with
  | nil =>
    cases h
    exact .nil
  | cons e es ih =>
    obtain ⟨first, hfirst, h⟩ := bind_eq_ok h
    obtain ⟨rest, hrest, h⟩ := bind_eq_ok h
    cases h
    exact .cons (channelPublisher_derives hfirst) (ih hrest)

/-- The publishers of a derived row: one for each id its published set lists, each once and ascending. -/
def Expanded (d : Derived) (publishers : List FeedPublisher) : Prop :=
  ∃ ids : List U8, ids.Pairwise (· < ·) ∧ (∀ id, id ∈ ids ↔ ∃ spec ∈ d.channels, spec.Lists id) ∧
    List.Forall₂ (Derives d.ports) ids publishers

theorem expand_spec {row : FeedRow} {d : Derived} {publishers : List FeedPublisher}
    (h : expand row d = .ok publishers) : Expanded d publishers := by
  obtain ⟨entries, hentries, h⟩ := bind_eq_ok h
  obtain ⟨hasc, hmem⟩ := publishedSetEntries_spec hentries
  exact ⟨_, hasc, hmem, channelPublishers_derives h⟩

/-! ## A row, and the document -/

theorem duplicateBasePort_none {seen : List Nat} {ps : List FeedPublisher} (h : duplicateBasePort seen ps = none) :
    (ps.map FeedPublisher.basePort).Nodup ∧ ∀ p ∈ ps, p.basePort ∉ seen := by
  induction ps generalizing seen with
  | nil => exact ⟨List.nodup_nil, nofun⟩
  | cons p ps ih =>
    unfold duplicateBasePort at h
    split_ifs at h with hmem
    obtain ⟨hnodup, hall⟩ := ih h
    rw [List.map_cons, List.nodup_cons, List.forall_mem_cons]
    refine ⟨⟨fun hp => ?_, hnodup⟩, hmem, fun q hq hqs => hall q hq (List.mem_cons_of_mem _ hqs)⟩
    obtain ⟨q, hq, heq⟩ := List.mem_map.mp hp
    exact hall q hq (heq ▸ List.mem_cons_self)

/-- What a row of the registry is, of the row of the document. -/
theorem feedFrom_ok {table : List SourceAssignment} {row : FeedRow} {f : Feed} (h : feedFrom table row = .ok f) :
    (f.publishers.map FeedPublisher.basePort).Nodup ∧ f.mirrorOffset = row.publisherOffset.map Fin.val ∧
      ∀ d, row.publishers = .derived d → Expanded d f.publishers := by
  obtain ⟨_, -, h⟩ := bind_eq_ok h
  obtain ⟨publishers, hpublishers, h⟩ := bind_eq_ok h
  obtain ⟨_, -, h⟩ := bind_eq_ok h
  cases hdup : duplicateBasePort [] publishers with
  | some port =>
    rw [hdup] at h
    cases h
  | none =>
    rw [hdup] at h
    cases h
    refine ⟨(duplicateBasePort_none hdup).1, rfl, fun d hd => ?_⟩
    unfold publishersOf at hpublishers
    rw [hd] at hpublishers
    exact expand_spec hpublishers

theorem feedsFrom_ok {table : List SourceAssignment} {rows : List FeedRow} {fs : List Feed} :
    feedsFrom table rows = .ok fs ↔ List.Forall₂ (fun row f => feedFrom table row = .ok f) rows fs := by
  induction rows generalizing fs with
  | nil =>
    rw [List.forall₂_nil_left_iff]
    exact ⟨fun h => (Except.ok.inj h).symm, fun h => by rw [h]; rfl⟩
  | cons row rows ih =>
    unfold feedsFrom
    rw [bind_eq_ok_iff]
    constructor
    · rintro ⟨first, hfirst, h⟩
      obtain ⟨rest, hrest, h⟩ := bind_eq_ok h
      cases h
      exact .cons hfirst (ih.mp hrest)
    · rintro (_ | ⟨hfirst, hrest⟩)
      exact ⟨_, hfirst, bind_eq_ok_iff.mpr ⟨_, ih.mpr hrest, rfl⟩⟩

/-- A document is accepted when it is of a known version, names feeds and sources in order, and each row is accepted,
alone and together. -/
theorem build_ok {u : CaseMapping} {installed : List SourceAssignment} {doc : Document} {rows : List Feed} :
    build u installed doc = .ok rows ↔
      doc.version = SUPPORTED_VERSION ∧ doc.feeds ≠ [] ∧ ∃ sources, sourceAssignments u doc.sources = .ok sources ∧
        List.Forall₂ (fun row f => feedFrom (sources.getD installed) row = .ok f) doc.feeds rows ∧
          checkCrossRowInvariants rows = .ok () := by
  unfold build
  simp only [bind_eq_ok_iff, feedsFrom_ok]
  constructor
  · rintro ⟨⟨⟩, hversion, ⟨⟩, hfeeds, sources, hsources, fs, hfs, ⟨⟩, hcheck, heq⟩
    cases heq
    exact ⟨not_not.mp (refuseIf_isOk.mp hversion), refuseIf_isOk.mp hfeeds, sources, hsources, hfs, hcheck⟩
  · rintro ⟨hversion, hfeeds, sources, hsources, hfs, hcheck⟩
    exact ⟨(), refuseIf_isOk.mpr (not_not.mpr hversion), (), refuseIf_isOk.mpr hfeeds, sources, hsources, rows, hfs, (),
      hcheck, rfl⟩

/-- The rows in another order are accepted too, as the same rows. -/
theorem build_perm {u : CaseMapping} {installed : List SourceAssignment} {doc : Document} {rows : List Feed}
    (h : build u installed doc = .ok rows) {feeds : List FeedRow} (hperm : feeds.Perm doc.feeds) :
    ∃ rows', build u installed { doc with feeds := feeds } = .ok rows' ∧ rows'.Perm rows := by
  obtain ⟨hversion, hfeeds, sources, hsources, hrows, hcheck⟩ := build_ok.mp h
  obtain ⟨rows', hrows', hperm'⟩ := List.perm_comp_forall₂ hperm hrows
  refine ⟨rows', build_ok.mpr ⟨hversion, fun hnil => ?_, sources, hsources, hrows', ?_⟩, hperm'⟩
  · obtain rfl : feeds = [] := hnil
    exact hfeeds (List.nil_perm.mp hperm)
  · exact (checkCrossRowInvariants_perm hperm').mpr hcheck

/-! ## What holds of the rows -/

/-- What the loader promises of the rows of a document. -/
structure Sound (doc : Document) (rows : List Feed) : Prop where
  /-- No two sockets share a port of a group. -/
  ports : (rows.flatMap Feed.groupPorts).Nodup
  keys : (Reconcile.enabledKeys rows).Nodup
  arbitration : ∀ f ∈ rows, ∀ g ∈ rows, f.venue = g.venue → f.arbitration = g.arbitration
  sourceId : ∀ f ∈ rows, ∀ g ∈ rows, f.scope = g.scope → f.sourceId = g.sourceId
  shape : ∀ f ∈ rows, ∀ g ∈ rows, f.emitTrades = true → g.emitTrades = true → f.scope = g.scope → f.derived = g.derived
  shared : ∀ f ∈ rows, ∀ g ∈ rows, f.kind.buildsBook = true → g.kind.buildsBook = true → f.scope = g.scope →
    f.sharedBatchId = g.sharedBatchId
  category : ∀ f ∈ rows, ∀ g ∈ rows, f.kind = .marketByOrder → g.kind = .marketByOrder → f.category = g.category →
    f.venue = g.venue
  expanded : List.Forall₂ (fun row f => ∀ d, row.publishers = .derived d → Expanded d f.publishers) doc.feeds rows

theorem keysOf_nodup {f : Feed} (h : (f.publishers.map FeedPublisher.basePort).Nodup) : (Reconcile.keysOf f).Nodup := by
  unfold Reconcile.keysOf
  refine List.Nodup.of_map Reconcile.FeedKey.basePort ?_
  rwa [List.map_map]

theorem exists_of_mem_right {α β : Type} {R : α → β → Prop} {l : List α} {m : List β} (h : List.Forall₂ R l m) {b : β}
    (hb : b ∈ m) : ∃ a ∈ l, R a b := by
  induction h with
  | nil => cases hb
  | cons hab _ ih =>
    rcases List.mem_cons.mp hb with rfl | hb
    · exact ⟨_, List.mem_cons_self, hab⟩
    · obtain ⟨a, ha, hR⟩ := ih hb
      exact ⟨a, List.mem_cons_of_mem _ ha, hR⟩

instance : Std.Symm Compatible := ⟨fun _ _ h => h.symm⟩

/-- What every two different rows agree on, every two rows do. -/
theorem forall_of_pairwise {rows : List Feed} {R : Feed → Feed → Prop} (hrefl : ∀ f, R f f)
    (hcompat : ∀ f g, Compatible f g → R f g) (h : rows.Pairwise Compatible) : ∀ f ∈ rows, ∀ g ∈ rows, R f g := by
  intro f hf g hg
  by_cases heq : f = g
  · exact heq ▸ hrefl f
  · exact hcompat f g (h.forall hf hg heq)

/-- **An accepted document is sound**, and the same rows in another order are accepted too. -/
theorem build_sound {u : CaseMapping} {installed : List SourceAssignment} {doc : Document} {rows : List Feed}
    (h : build u installed doc = .ok rows) :
    Sound doc rows ∧ ∀ feeds : List FeedRow, feeds.Perm doc.feeds →
      ∃ rows', build u installed { doc with feeds := feeds } = .ok rows' ∧ rows'.Perm rows := by
  refine ⟨?_, fun feeds hperm => build_perm h hperm⟩
  obtain ⟨-, -, sources, -, hrows, hcheck⟩ := build_ok.mp h
  obtain ⟨halone, hpair⟩ := checkCrossRowInvariants_iff.mp hcheck
  have hbase : ∀ f ∈ rows, (f.publishers.map FeedPublisher.basePort).Nodup := by
    intro f hf
    obtain ⟨row, -, hrow⟩ := exists_of_mem_right hrows hf
    exact (feedFrom_ok hrow).1
  exact {
    ports := List.nodup_flatMap.mpr ⟨fun f hf => (halone f hf).ports, hpair.imp fun hfg x hx hxg => hfg.ports x hx hxg⟩
    keys := List.nodup_flatMap.mpr ⟨fun f hf => keysOf_nodup (hbase f hf), hpair.imp fun hfg => by
      intro key hf hg
      obtain ⟨p, -, rfl⟩ := List.mem_map.mp hf
      obtain ⟨q, -, heq⟩ := List.mem_map.mp hg
      exact hfg.row (Prod.ext (congrArg Reconcile.FeedKey.venue heq).symm
        (Prod.ext (congrArg Reconcile.FeedKey.category heq).symm (congrArg Reconcile.FeedKey.kind heq).symm))⟩
    arbitration := forall_of_pairwise (fun _ _ => rfl) (fun _ _ hfg => hfg.arbitration) hpair
    sourceId := forall_of_pairwise (fun _ _ => rfl) (fun _ _ hfg => hfg.sourceId) hpair
    shape := fun f hf g hg hft hgt => by
      rw [(halone f hf).tape] at hft
      rw [(halone g hg).tape] at hgt
      exact forall_of_pairwise (R := fun f g => f.claimsTape = true → g.claimsTape = true → f.scope = g.scope →
        f.derived = g.derived) (fun _ _ _ _ => rfl) (fun _ _ hfg => hfg.shape) hpair f hf g hg hft hgt
    shared := forall_of_pairwise (fun _ _ _ _ => rfl) (fun _ _ hfg => hfg.shared) hpair
    category := forall_of_pairwise (fun _ _ _ _ => rfl) (fun _ _ hfg => hfg.category) hpair
    expanded := hrows.imp fun row f hrow => (feedFrom_ok hrow).2.2 }

/-- A document of one row with a port for each of two channels, and a mirror. -/
def mirrored (offset : U8) : Document where
  version := 1
  sources := []
  feeds := [{
    venue := "KALSHI"
    category := "sports"
    code := "sports-mbp"
    kind := .marketByPrice
    group := 0
    emitTrades := true
    arbitration := .sticky
    sharedBatchId := false
    publishers := .derived ⟨[.range 10 11], ⟨30000, 40000, some 50000⟩⟩
    publisherOffset := some offset
    sourceId := none }]

/-- The row of `mirrored`. -/
def mirroredRow (offset : U8) : Feed where
  venue := "KALSHI"
  category := "sports"
  code := "sports-mbp"
  kind := .marketByPrice
  group := 0
  publishers := [⟨.threePort 30010 40010 50010, some 10, none⟩, ⟨.threePort 30011 40011 50011, some 11, none⟩]
  emitTrades := true
  arbitration := .sticky
  sharedBatchId := false
  mirrorOffset := some offset
  sourceId := none

theorem build_mirrored : build CaseMapping.basic BUILT_IN (mirrored 100) = .ok [mirroredRow 100] := by
  decide +kernel

theorem build_sound_mirrored : Sound (mirrored 100) [mirroredRow 100] :=
  (build_sound build_mirrored).1

/-! ## A mirrored row -/

/-- The channels a row's publishers were derived from. -/
def Feed.publishedSet (f : Feed) : List Nat := f.publishers.filterMap FeedPublisher.channel

/-- A channel and its mirror's. -/
def wireIds (offset channel : Nat) : List Nat := [channel, channel + offset]

/-- Every channel is its own identity and its mirror's, on the wire in 8 bits, and no two channels share one. -/
def Faithful (offset : Nat) (channels : List Nat) : Prop :=
  (∀ n ∈ channels, Ingest.canonicalChannel (some offset) n = n ∧ n + offset ≤ 255 ∧
      Ingest.canonicalChannel (some offset) (n + offset) = n) ∧
    ∀ n ∈ channels, ∀ m ∈ channels, n ≠ m → ∀ a ∈ wireIds offset n, ∀ b ∈ wireIds offset m,
      Ingest.canonicalChannel (some offset) a ≠ Ingest.canonicalChannel (some offset) b

/-- Every channel is below the offset, and its mirror's within 8 bits. -/
def Separated (offset : Nat) (channels : List Nat) : Prop := ∀ n ∈ channels, (offset = 0 ∨ n < offset) ∧ n + offset ≤ 255

theorem canonicalChannel_add (offset n : Nat) : Ingest.canonicalChannel (some offset) (n + offset) = n := by
  unfold Ingest.canonicalChannel
  dsimp only
  rw [if_pos (Nat.le_add_left offset n), Nat.add_sub_cancel]

theorem canonicalChannel_eq_self {offset n : Nat} :
    Ingest.canonicalChannel (some offset) n = n ↔ offset = 0 ∨ n < offset := by
  unfold Ingest.canonicalChannel
  dsimp only
  split_ifs <;> omega

/-- Canonicalization compares an id with the offset only, so it is faithful exactly when the offset separates the
channels from their mirrors. -/
theorem faithful_iff {offset : Nat} {channels : List Nat} : Faithful offset channels ↔ Separated offset channels := by
  constructor
  · exact fun h n hn => ⟨canonicalChannel_eq_self.mp (h.1 n hn).1, (h.1 n hn).2.1⟩
  · intro h
    have hself : ∀ n ∈ channels, ∀ a ∈ wireIds offset n, Ingest.canonicalChannel (some offset) a = n := by
      intro n hn a ha
      simp only [wireIds, List.mem_cons, List.not_mem_nil, or_false] at ha
      rcases ha with rfl | rfl
      · exact canonicalChannel_eq_self.mpr (h a hn).1
      · exact canonicalChannel_add offset n
    refine ⟨fun n hn => ⟨hself n hn n List.mem_cons_self, (h n hn).2, canonicalChannel_add offset n⟩, ?_⟩
    intro n hn m hm hne a ha b hb
    rw [hself n hn a ha, hself m hm b hb]
    exact hne

theorem filterMap_channel {b : PortBlock} {ids : List U8} {ps : List FeedPublisher} (h : List.Forall₂ (Derives b) ids ps) :
    ps.filterMap FeedPublisher.channel = ids.map Fin.val := by
  induction h with
  | nil => rfl
  | cons hp _ ih => rw [List.filterMap_cons_some hp.channel, ih, List.map_cons]

/-- **The channels of a mirrored row are told from its mirror's exactly when the offset is past every one of them**, or
zero, and no mirror id passes 8 bits: the loader checks neither. -/
theorem build_faithful_iff {u : CaseMapping} {installed : List SourceAssignment} {doc : Document} {rows : List Feed}
    (h : build u installed doc = .ok rows) :
    List.Forall₂ (fun row f => ∀ d offset, row.publishers = .derived d → row.publisherOffset = some offset →
      f.mirrorOffset = some offset.val ∧ (∀ n, n ∈ f.publishedSet ↔ ∃ id : U8, id.val = n ∧ ∃ spec ∈ d.channels, spec.Lists id) ∧
        (Faithful offset.val f.publishedSet ↔
          ∀ spec ∈ d.channels, ∀ id, spec.Lists id → (offset.val = 0 ∨ id < offset) ∧ id.val + offset.val ≤ 255))
      doc.feeds rows := by
  obtain ⟨-, -, sources, -, hrows, -⟩ := build_ok.mp h
  refine hrows.imp fun row f hrow d offset hd hoffset => ?_
  obtain ⟨-, hmirror, hexpanded⟩ := feedFrom_ok hrow
  obtain ⟨ids, -, hids, hderives⟩ := hexpanded d hd
  have hset : ∀ n, n ∈ f.publishedSet ↔ ∃ id : U8, id.val = n ∧ ∃ spec ∈ d.channels, spec.Lists id := by
    intro n
    unfold Feed.publishedSet
    rw [filterMap_channel hderives, List.mem_map]
    simp only [hids]
    exact ⟨fun ⟨id, hid, heq⟩ => ⟨id, heq, hid⟩, fun ⟨id, heq, hid⟩ => ⟨id, hid, heq⟩⟩
  refine ⟨by rw [hmirror, hoffset]; rfl, hset, faithful_iff.trans ⟨?_, ?_⟩⟩
  · intro hsep spec hspec id hlists
    exact hsep id.val ((hset id.val).mpr ⟨id, rfl, spec, hspec, hlists⟩)
  · intro hall n hn
    obtain ⟨id, rfl, spec, hspec, hlists⟩ := (hset n).mp hn
    exact hall spec hspec id hlists

/-- A mirror one channel up: channel 11 and the mirror of channel 10 are both filed under 10. -/
theorem mirrored_not_faithful :
    build CaseMapping.basic BUILT_IN (mirrored 1) = .ok [mirroredRow 1] ∧
      Ingest.canonicalChannel (some 1) 11 = 10 ∧ ¬ Faithful 1 (mirroredRow 1).publishedSet := by
  refine ⟨by decide +kernel, rfl, fun h => ?_⟩
  exact absurd (h.1 11 (by decide)).1 (by decide)

/-- A mirror a hundred channels up. -/
theorem mirrored_faithful : Faithful 100 (mirroredRow 100).publishedSet := by
  cases build_faithful_iff build_mirrored with
  | cons hrow _ =>
    refine (hrow _ _ rfl rfl).2.2.mpr fun spec hspec id hlists => ?_
    obtain rfl := List.mem_singleton.mp hspec
    have hle : id.val ≤ 11 := hlists.2
    have hoffset : (100 : U8).val = 100 := rfl
    refine ⟨.inr (Fin.lt_def.mpr ?_), ?_⟩ <;> omega

end EdgeConnect.Registry
