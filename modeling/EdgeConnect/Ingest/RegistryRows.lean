import EdgeConnect.Ingest.Registry

/-!
# The rows of a checked document

* `Alone`, `Compatible` — what the checks ask of a row, and of two rows;
* `Tracks` — what the checks have on record after some rows, and `checkRow_ok_iff`, `checkRow_tracks`: one row;
* `checkCrossRowInvariants_iff` — a document passes exactly when each of its rows is in order and every two of them
  are compatible, so the order of the rows does not matter (`checkCrossRowInvariants_perm`).
-/

set_option autoImplicit false

namespace EdgeConnect.Registry

/-- The ports a publisher binds, whatever their role. -/
def FeedPorts.all (p : FeedPorts) : List Nat := p.mktdata :: p.refdata :: p.snapshot.toList

def FeedPublisher.groupPorts (group : Nat) (p : FeedPublisher) : List (Nat × Nat) := p.ports.all.map fun port => (group, port)

/-- What the sockets of a row are bound to. -/
def Feed.groupPorts (f : Feed) : List (Nat × Nat) := f.publishers.flatMap (FeedPublisher.groupPorts f.group)

/-- Whether a row derives a port a channel. -/
def Feed.derived (f : Feed) : Bool := f.publishers.any fun p => p.channel.isSome

def Feed.claimsTape (f : Feed) : Bool := (tapeRank f.kind).isSome

def Feed.scope (f : Feed) : String × String := (f.venue, f.category)

/-- How many port roles a publisher's block lists. -/
def FeedPorts.roles (p : FeedPorts) : Nat := if p.snapshot.isSome then 3 else 2

/-- A row in order. -/
structure Alone (f : Feed) : Prop where
  shared : f.sharedBatchId = true → f.kind.buildsBook = true
  tape : f.emitTrades = f.claimsTape
  shape : ∀ p ∈ f.publishers, p.ports.roles = portRolesFor f.kind
  ports : f.groupPorts.Nodup

/-- Two rows that may stand in one document. -/
structure Compatible (f g : Feed) : Prop where
  row : f.row ≠ g.row
  arbitration : f.venue = g.venue → f.arbitration = g.arbitration
  shared : f.kind.buildsBook = true → g.kind.buildsBook = true → f.scope = g.scope → f.sharedBatchId = g.sharedBatchId
  sourceId : f.scope = g.scope → f.sourceId = g.sourceId
  shape : f.claimsTape = true → g.claimsTape = true → f.scope = g.scope → f.derived = g.derived
  category : f.kind = .marketByOrder → g.kind = .marketByOrder → f.category = g.category → f.venue = g.venue
  ports : ∀ x ∈ f.groupPorts, x ∉ g.groupPorts

theorem Compatible.symm {f g : Feed} (h : Compatible f g) : Compatible g f where
  row := h.row.symm
  arbitration heq := (h.arbitration heq.symm).symm
  shared hg hf heq := (h.shared hf hg heq.symm).symm
  sourceId heq := (h.sourceId heq.symm).symm
  shape hg hf heq := (h.shape hf hg heq.symm).symm
  category hg hf heq := (h.category hf hg heq.symm).symm
  ports x hx hxf := h.ports x hxf hx

/-! ## What is on record -/

section Declared

variable {κ ν : Type} [DecidableEq κ] [DecidableEq ν] {applies : Feed → Bool} {scope : Feed → κ} {value : Feed → ν}
  {pre : List Feed} {seen seen' : List (κ × ν)}

/-- The record of a scope is what the rows before that a check applies to declare for it. -/
def Declares (applies : Feed → Bool) (scope : Feed → κ) (value : Feed → ν) (pre : List Feed) (seen : List (κ × ν)) : Prop :=
  ∀ k v, seen.lookup k = some v ↔ ∃ f ∈ pre, applies f = true ∧ scope f = k ∧ value f = v

theorem agree_isOk (f : Feed) (err : ν → RegistryError) (h : Declares applies scope value pre seen) :
    (∃ seen', agree (applies f) seen (scope f) (value f) err = .ok seen') ↔
      ∀ g ∈ pre, applies g = true → applies f = true → scope g = scope f → value g = value f := by
  unfold agree
  by_cases hf : applies f = true
  · rw [if_pos hf]
    cases hlook : seen.lookup (scope f) with
    | none =>
      refine ⟨fun _ g hg happ _ hscope => ?_, fun _ => ⟨_, rfl⟩⟩
      have hsome := (h (scope f) (value g)).mpr ⟨g, hg, happ, hscope, rfl⟩
      rw [hlook] at hsome
      cases hsome
    | some v =>
      dsimp only
      constructor
      · rintro ⟨seen', hok⟩ g hg happ _ hscope
        split_ifs at hok with hv
        have hsome := (h (scope f) (value g)).mpr ⟨g, hg, happ, hscope, rfl⟩
        rw [hlook] at hsome
        rw [← hv]
        exact (Option.some.inj hsome).symm
      · intro hall
        obtain ⟨g, hg, happ, hscope, hvalue⟩ := (h (scope f) v).mp hlook
        rw [if_pos (hvalue.symm.trans (hall g hg happ hf hscope))]
        exact ⟨_, rfl⟩
  · rw [if_neg hf]
    exact ⟨fun _ _ _ _ hf' => absurd hf' hf, fun _ => ⟨_, rfl⟩⟩

theorem agree_declares {f : Feed} {err : ν → RegistryError} (h : Declares applies scope value pre seen)
    (hok : agree (applies f) seen (scope f) (value f) err = .ok seen') :
    Declares applies scope value (f :: pre) seen' := by
  have hskip : ∀ k v, (applies f = true → scope f = k → value f = v → seen.lookup k = some v) →
      (seen.lookup k = some v ↔ ∃ g ∈ f :: pre, applies g = true ∧ scope g = k ∧ value g = v) := by
    intro k v hf
    rw [h k v]
    constructor
    · rintro ⟨g, hg, hrest⟩
      exact ⟨g, List.mem_cons_of_mem _ hg, hrest⟩
    · rintro ⟨g, hg, happ, hscope, hvalue⟩
      rcases List.mem_cons.mp hg with rfl | hg
      · exact (h k v).mp (hf happ hscope hvalue)
      · exact ⟨g, hg, happ, hscope, hvalue⟩
  unfold agree at hok
  intro k v
  split_ifs at hok with hf
  · cases hlook : seen.lookup (scope f) with
    | none =>
      rw [hlook] at hok
      cases hok
      by_cases hk : k = scope f
      · subst hk
        rw [List.lookup_cons_self]
        constructor
        · intro hv
          exact ⟨f, List.mem_cons_self, hf, rfl, Option.some.inj hv⟩
        · rintro ⟨g, hg, happ, hscope, hvalue⟩
          rcases List.mem_cons.mp hg with rfl | hg
          · rw [hvalue]
          · have hsome := (h (scope f) v).mpr ⟨g, hg, happ, hscope, hvalue⟩
            rw [hlook] at hsome
            cases hsome
      · rw [List.lookup_cons, beq_false_of_ne hk]
        exact hskip k v fun _ hscope _ => absurd hscope.symm hk
    | some v' =>
      rw [hlook] at hok
      dsimp only at hok
      split_ifs at hok with hv
      cases hok
      refine hskip k v fun _ hscope hvalue => ?_
      rw [← hscope, hlook, hv, hvalue]
  · cases hok
    exact hskip k v fun hf' => absurd hf' hf

end Declared

/-- What the checks have on record after some rows. -/
structure Tracks (pre : List Feed) (s : Seen) : Prop where
  triples : ∀ t, t ∈ s.triples ↔ ∃ f ∈ pre, f.row = t
  modes : Declares (fun _ => true) Feed.venue Feed.arbitration pre s.modes
  declared : Declares (fun _ => true) Feed.scope Feed.sourceId pre s.declared
  shapes : Declares Feed.claimsTape Feed.scope Feed.derived pre s.shapes
  groupPorts : ∀ x, x ∈ s.groupPorts ↔ ∃ f ∈ pre, x ∈ f.groupPorts
  mboCategories : Declares (fun f => f.kind = .marketByOrder) Feed.category Feed.venue pre s.mboCategories
  sharedSlots : Declares (fun f => f.kind.buildsBook) Feed.scope Feed.sharedBatchId pre s.sharedSlots

theorem tracks_empty : Tracks [] .empty := by
  constructor <;> simp [Seen.empty, Declares]

/-! ## The ports -/

theorem claimPorts_isOk (f : Feed) (seen : List (Nat × Nat)) (ports : List Nat) :
    (∃ seen', claimPorts f seen ports = .ok seen') ↔
      (ports.map fun port => (f.group, port)).Nodup ∧ ∀ x ∈ ports.map fun port => (f.group, port), x ∉ seen := by
  induction ports generalizing seen with
  | nil => simp [claimPorts]
  | cons port ports ih =>
    unfold claimPorts
    by_cases hmem : (f.group, port) ∈ seen
    · rw [if_pos hmem]
      refine ⟨fun ⟨_, h⟩ => (nomatch h), fun h => absurd hmem (h.2 _ (by simp))⟩
    · rw [if_neg hmem, ih, List.map_cons, List.nodup_cons, List.forall_mem_cons]
      constructor
      · rintro ⟨hnodup, hall⟩
        refine ⟨⟨fun hport => ?_, hnodup⟩, hmem, fun x hx hxs => hall x hx (List.mem_cons_of_mem _ hxs)⟩
        exact hall _ hport List.mem_cons_self
      · rintro ⟨⟨hport, hnodup⟩, -, hall⟩
        refine ⟨hnodup, fun x hx hxs => ?_⟩
        rcases List.mem_cons.mp hxs with rfl | hxs
        · exact hport hx
        · exact hall x hx hxs

theorem claimPorts_mem {f : Feed} {seen seen' : List (Nat × Nat)} {ports : List Nat} (h : claimPorts f seen ports = .ok seen')
    (x : Nat × Nat) : x ∈ seen' ↔ x ∈ seen ∨ x ∈ ports.map fun port => (f.group, port) := by
  induction ports generalizing seen with
  | nil =>
    cases h
    simp
  | cons port ports ih =>
    unfold claimPorts at h
    split_ifs at h with hmem
    rw [ih h, List.map_cons, List.mem_cons, List.mem_cons]
    tauto

theorem checkPublishers_isOk (f : Feed) (seen : List (Nat × Nat)) (ps : List FeedPublisher) :
    (∃ seen', checkPublishers f seen ps = .ok seen') ↔
      (∀ p ∈ ps, p.ports.roles = portRolesFor f.kind) ∧ (ps.flatMap (FeedPublisher.groupPorts f.group)).Nodup ∧
        ∀ x ∈ ps.flatMap (FeedPublisher.groupPorts f.group), x ∉ seen := by
  induction ps generalizing seen with
  | nil => simp [checkPublishers]
  | cons p ps ih =>
    unfold checkPublishers
    dsimp only
    by_cases hroles : p.ports.roles = portRolesFor f.kind
    · have hcond : ¬ (if p.ports.snapshot.isSome = true then 3 else 2) ≠ portRolesFor f.kind := not_not.mpr hroles
      rw [if_neg hcond, List.flatMap_cons, List.nodup_append, List.forall_mem_cons]
      have hclaim := claimPorts_isOk f seen p.ports.all
      cases hok : claimPorts f seen p.ports.all with
      | error e =>
        rw [hok] at hclaim
        have hnot := mt hclaim.mpr (fun ⟨_, h⟩ => nomatch h)
        have hok' : claimPorts f seen (p.ports.mktdata :: p.ports.refdata :: p.ports.snapshot.toList) = .error e := hok
        rw [hok']
        refine ⟨fun ⟨_, h⟩ => (nomatch h), fun h => absurd ⟨h.2.1.1, fun x hx => h.2.2 x (List.mem_append_left _ hx)⟩ hnot⟩
      | ok seen₁ =>
        have hok' : claimPorts f seen (p.ports.mktdata :: p.ports.refdata :: p.ports.snapshot.toList) = .ok seen₁ := hok
        rw [hok']
        obtain ⟨hnodup, hfresh⟩ := hclaim.mp ⟨_, hok⟩
        dsimp only
        rw [ih]
        have hmem := claimPorts_mem hok
        constructor
        · rintro ⟨hshape, hrest, hall⟩
          refine ⟨⟨hroles, hshape⟩, ⟨hnodup, hrest, ?_⟩, fun x hx => ?_⟩
          · rintro x hx y hy rfl
            exact hall x hy ((hmem x).mpr (.inr hx))
          · rcases List.mem_append.mp hx with hx | hx
            · exact hfresh x hx
            · exact fun hxs => hall x hx ((hmem x).mpr (.inl hxs))
        · rintro ⟨⟨-, hshape⟩, ⟨-, hrest, hdisjoint⟩, hall⟩
          refine ⟨hshape, hrest, fun x hx hxs => ?_⟩
          rcases (hmem x).mp hxs with hxs | hxs
          · exact hall x (List.mem_append_right _ hx) hxs
          · exact hdisjoint x hxs x hx rfl
    · have hcond : (if p.ports.snapshot.isSome = true then 3 else 2) ≠ portRolesFor f.kind := hroles
      rw [if_pos hcond]
      refine ⟨fun ⟨_, h⟩ => (nomatch h), fun h => absurd (h.1 p List.mem_cons_self) hroles⟩

theorem checkPublishers_mem {f : Feed} {seen seen' : List (Nat × Nat)} {ps : List FeedPublisher}
    (h : checkPublishers f seen ps = .ok seen') (x : Nat × Nat) :
    x ∈ seen' ↔ x ∈ seen ∨ x ∈ ps.flatMap (FeedPublisher.groupPorts f.group) := by
  induction ps generalizing seen with
  | nil =>
    cases h
    simp
  | cons p ps ih =>
    unfold checkPublishers at h
    dsimp only at h
    by_cases hroles : (if p.ports.snapshot.isSome = true then 3 else 2) ≠ portRolesFor f.kind
    · rw [if_pos hroles] at h
      cases h
    rw [if_neg hroles] at h
    cases hok : claimPorts f seen (p.ports.mktdata :: p.ports.refdata :: p.ports.snapshot.toList) with
    | error e =>
      rw [hok] at h
      cases h
    | ok seen₁ =>
      rw [hok] at h
      rw [ih h, claimPorts_mem hok, List.flatMap_cons, List.mem_append, or_assoc]
      rfl

/-! ## One row -/

theorem bind_eq_ok_iff {α β : Type} {x : Except RegistryError α} {f : α → Except RegistryError β} {b : β} :
    x >>= f = .ok b ↔ ∃ a, x = .ok a ∧ f a = .ok b :=
  ⟨bind_eq_ok, fun ⟨a, hx, hf⟩ => by
    rw [hx]
    exact hf⟩

theorem refuseIf_isOk {bad : Prop} [Decidable bad] {err : RegistryError} :
    refuseIf bad err = .ok () ↔ ¬ bad := by
  unfold refuseIf
  split_ifs with h
  · exact ⟨nofun, fun hbad => absurd h hbad⟩
  · exact ⟨fun _ => h, fun _ => rfl⟩

section Row

variable {pre : List Feed} {s s' : Seen} {f : Feed}

/-- The records a row's checks leave behind. -/
theorem checkRow_eq_ok :
    checkRow s f = .ok s' ↔
      f.row ∉ s.triples ∧ ¬ (f.sharedBatchId = true ∧ (!f.kind.buildsBook) = true) ∧ ¬ f.emitTrades ≠ f.claimsTape ∧
        ∃ modes sharedSlots declared shapes mboCategories groupPorts,
          agree true s.modes f.venue f.arbitration (fun _ => .arbitrationDisagreement f.venue) = .ok modes ∧
          agree f.kind.buildsBook s.sharedSlots f.scope f.sharedBatchId
            (fun _ => .sharedBatchIdDisagreement f.venue f.category) = .ok sharedSlots ∧
          agree true s.declared f.scope f.sourceId (fun _ => .sourceIdDisagreement f.venue f.category) = .ok declared ∧
          agree f.claimsTape s.shapes f.scope f.derived (fun _ => .mixedChannelShape f.venue f.category) = .ok shapes ∧
          agree (f.kind = .marketByOrder) s.mboCategories f.category f.venue
            (fun venue => .sharedOrderBookCategory f.category (venue, f.venue)) = .ok mboCategories ∧
          checkPublishers f s.groupPorts f.publishers = .ok groupPorts ∧
          s' = ⟨f.row :: s.triples, modes, declared, shapes, groupPorts, mboCategories, sharedSlots⟩ := by
  unfold checkRow
  simp only [bind_eq_ok_iff]
  constructor
  · rintro ⟨⟨⟩, hrow, modes, hmodes, ⟨⟩, hshared, slots, hslots, declared, hdeclared, shapes, hshapes, ⟨⟩, htape, mbo, hmbo,
      ports, hports, heq⟩
    exact ⟨refuseIf_isOk.mp hrow, refuseIf_isOk.mp hshared, refuseIf_isOk.mp htape, modes, slots, declared, shapes, mbo,
      ports, hmodes, hslots, hdeclared, hshapes, hmbo, hports, (Except.ok.inj heq).symm⟩
  · rintro ⟨hrow, hshared, htape, modes, slots, declared, shapes, mbo, ports, hmodes, hslots, hdeclared, hshapes, hmbo,
      hports, rfl⟩
    exact ⟨(), refuseIf_isOk.mpr hrow, modes, hmodes, (), refuseIf_isOk.mpr hshared, slots, hslots, declared, hdeclared,
      shapes, hshapes, (), refuseIf_isOk.mpr htape, mbo, hmbo, ports, hports, rfl⟩

theorem checkRow_tracks (h : Tracks pre s) (hok : checkRow s f = .ok s') : Tracks (f :: pre) s' := by
  obtain ⟨-, -, -, modes, slots, declared, shapes, mbo, ports, hmodes, hslots, hdeclared, hshapes, hmbo, hports, rfl⟩ :=
    checkRow_eq_ok.mp hok
  exact {
    triples := fun t => by
      rw [List.mem_cons, h.triples t]
      simp only [List.exists_mem_cons_iff]
      exact or_congr eq_comm Iff.rfl
    modes := agree_declares h.modes hmodes
    declared := agree_declares h.declared hdeclared
    shapes := agree_declares h.shapes hshapes
    groupPorts := fun x => by
      rw [checkPublishers_mem hports, h.groupPorts x, or_comm]
      simp only [List.exists_mem_cons_iff]
      rfl
    mboCategories := agree_declares h.mboCategories hmbo
    sharedSlots := agree_declares h.sharedSlots hslots }

/-- A row passes exactly when it is in order and compatible with every row before it. -/
theorem checkRow_isOk (h : Tracks pre s) :
    (∃ s', checkRow s f = .ok s') ↔ Alone f ∧ ∀ g ∈ pre, Compatible g f := by
  have hmodes := agree_isOk f (fun _ => .arbitrationDisagreement f.venue) h.modes
  have hdeclared := agree_isOk f (fun _ => .sourceIdDisagreement f.venue f.category) h.declared
  have hshapes := agree_isOk f (fun _ => .mixedChannelShape f.venue f.category) h.shapes
  have hmbo := agree_isOk f (fun venue => .sharedOrderBookCategory f.category (venue, f.venue)) h.mboCategories
  have hslots := agree_isOk f (fun _ => .sharedBatchIdDisagreement f.venue f.category) h.sharedSlots
  have hports := checkPublishers_isOk f s.groupPorts f.publishers
  constructor
  · rintro ⟨s', hok⟩
    obtain ⟨hrow, hshared, htape, modes, slots, declared, shapes, mbo, ports, hmodes', hslots', hdeclared', hshapes', hmbo',
      hports', -⟩ := checkRow_eq_ok.mp hok
    obtain ⟨hshape, hnodup, hfresh⟩ := hports.mp ⟨_, hports'⟩
    refine ⟨⟨fun hs => ?_, not_not.mp htape, hshape, hnodup⟩, fun g hg => ⟨?_, ?_, ?_, ?_, ?_, ?_, ?_⟩⟩
    · by_contra hbook
      exact hshared ⟨hs, by simpa using hbook⟩
    · exact fun heq => hrow ((h.triples _).mpr ⟨g, hg, heq⟩)
    · exact fun heq => hmodes.mp ⟨_, hmodes'⟩ g hg rfl rfl heq
    · exact fun hgb hfb heq => hslots.mp ⟨_, hslots'⟩ g hg hgb hfb heq
    · exact fun heq => hdeclared.mp ⟨_, hdeclared'⟩ g hg rfl rfl heq
    · exact fun hgt hft heq => hshapes.mp ⟨_, hshapes'⟩ g hg hgt hft heq
    · exact fun hgk hfk heq => hmbo.mp ⟨_, hmbo'⟩ g hg (decide_eq_true hgk) (decide_eq_true hfk) heq
    · exact fun x hx hxf => hfresh x hxf ((h.groupPorts x).mpr ⟨g, hg, hx⟩)
  · rintro ⟨halone, hall⟩
    obtain ⟨modes, hmodes'⟩ := hmodes.mpr fun g hg _ _ heq => (hall g hg).arbitration heq
    obtain ⟨slots, hslots'⟩ := hslots.mpr fun g hg hgb hfb heq => (hall g hg).shared hgb hfb heq
    obtain ⟨declared, hdeclared'⟩ := hdeclared.mpr fun g hg _ _ heq => (hall g hg).sourceId heq
    obtain ⟨shapes, hshapes'⟩ := hshapes.mpr fun g hg hgt hft heq => (hall g hg).shape hgt hft heq
    obtain ⟨mbo, hmbo'⟩ := hmbo.mpr fun g hg hgk hfk heq =>
      (hall g hg).category (of_decide_eq_true hgk) (of_decide_eq_true hfk) heq
    obtain ⟨ports, hports'⟩ := hports.mpr ⟨halone.shape, halone.ports, fun x hx hxs => by
      obtain ⟨g, hg, hxg⟩ := (h.groupPorts x).mp hxs
      exact (hall g hg).ports x hxg hx⟩
    refine ⟨_, checkRow_eq_ok.mpr ⟨fun hrow => ?_, fun hbad => ?_, not_not.mpr halone.tape, modes, slots, declared, shapes, mbo,
      ports, hmodes', hslots', hdeclared', hshapes', hmbo', hports', rfl⟩⟩
    · obtain ⟨g, hg, heq⟩ := (h.triples _).mp hrow
      exact (hall g hg).row heq
    · rw [halone.shared hbad.1] at hbad
      exact absurd hbad.2 (by decide)

end Row

/-! ## All rows -/

theorem checkRows_isOk (rows : List Feed) {pre : List Feed} {s : Seen} (h : Tracks pre s) :
    (∃ s', checkRows s rows = .ok s') ↔
      (∀ f ∈ rows, Alone f ∧ ∀ g ∈ pre, Compatible g f) ∧ rows.Pairwise Compatible := by
  induction rows generalizing pre s with
  | nil => simp [checkRows]
  | cons f rows ih =>
    unfold checkRows
    have hrow := checkRow_isOk (f := f) h
    rw [List.forall_mem_cons, List.pairwise_cons]
    cases hok : checkRow s f with
    | error e =>
      rw [hok] at hrow
      have hnot := mt hrow.mpr fun ⟨_, h⟩ => nomatch h
      exact ⟨fun ⟨_, h⟩ => (nomatch h), fun h => absurd h.1.1 hnot⟩
    | ok s₁ =>
      dsimp only
      rw [ih (checkRow_tracks h hok)]
      have hf := hrow.mp ⟨_, hok⟩
      simp only [List.forall_mem_cons]
      constructor
      · rintro ⟨hall, hpair⟩
        exact ⟨⟨hf, fun g hg => ⟨(hall g hg).1, (hall g hg).2.2⟩⟩, fun g hg => (hall g hg).2.1, hpair⟩
      · rintro ⟨⟨-, hall⟩, hfirst, hpair⟩
        exact ⟨fun g hg => ⟨(hall g hg).1, hfirst g hg, (hall g hg).2⟩, hpair⟩

/-- A document passes exactly when each row is in order and every two rows are compatible. -/
theorem checkCrossRowInvariants_iff {rows : List Feed} :
    checkCrossRowInvariants rows = .ok () ↔ (∀ f ∈ rows, Alone f) ∧ rows.Pairwise Compatible := by
  have hrows := checkRows_isOk rows tracks_empty
  simp only [List.not_mem_nil, false_imp_iff, implies_true, and_true] at hrows
  rw [← hrows]
  unfold checkCrossRowInvariants
  cases checkRows .empty rows with
  | error e => exact ⟨nofun, fun ⟨_, h⟩ => nomatch h⟩
  | ok s => exact ⟨fun _ => ⟨s, rfl⟩, fun _ => rfl⟩

/-- The order of the rows does not matter. -/
theorem checkCrossRowInvariants_perm {rows rows' : List Feed} (h : rows.Perm rows') :
    checkCrossRowInvariants rows = .ok () ↔ checkCrossRowInvariants rows' = .ok () := by
  rw [checkCrossRowInvariants_iff, checkCrossRowInvariants_iff, h.pairwise_iff fun hfg => hfg.symm]
  simp only [h.mem_iff]

end EdgeConnect.Registry
