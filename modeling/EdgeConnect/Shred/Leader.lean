import EdgeConnect.Lib.Machine
import EdgeConnect.Shred.Parse
import Mathlib.Algebra.Group.Nat.Defs
import Mathlib.Data.List.Perm.Subperm

/-!
# The leader schedule (`src/shred/leader.rs`)

The cache of leaders by epoch, and the refresher that fills it from an RPC endpoint.

* `leader` — the lookup of a slot over the cached epochs;
* `buildLeaders`, `ensureEpoch`, `refresh` — as the source has them; base58 is a parameter;
* `Chain` — a fixed epoch layout with a leader per slot, and the answers that are consistent with one;
* `Good` — every cached epoch is as the chain has it, and none is cached twice;
* `lookups_are_right` — so a lookup finds the true leader or nothing, and an epoch that was loaded resolves
  until a later one is reported.
-/

set_option autoImplicit false

namespace EdgeConnect.Shred.LeaderSchedule

/-! ## The cache -/

def MAX_SCHEDULE_SLOTS : Nat := 4000000

/-- The leader pubkeys of one epoch, indexed by `slot - first_slot`. -/
structure EpochLeaders where
  epoch : Nat
  firstSlot : Nat
  leaders : List (Option Bytes)
  deriving DecidableEq, Repr

abbrev Cache := List EpochLeaders

/-- The slot's leader in one cached epoch. -/
def EpochLeaders.leader (x : EpochLeaders) (slot : Nat) : Option Bytes :=
  if x.firstSlot ≤ slot then x.leaders[slot - x.firstSlot]?.join else none

def leader (cache : Cache) (slot : Nat) : Option Bytes := cache.findSome? fun x => x.leader slot

def epochs (cache : Cache) : List Nat := cache.map EpochLeaders.epoch

/-! ## Schedules -/

structure EpochInfo where
  epoch : Nat
  absoluteSlot : Nat
  slotIndex : Nat
  slotsInEpoch : Nat
  deriving DecidableEq, Repr

/-- A `getLeaderSchedule` response, base58 pubkey → relative slot indices, in the order its map iterates in. -/
structure Schedule where
  entries : List (String × List Nat)
  keyed : (entries.map Prod.fst).Nodup

/-- How one refresh is answered. -/
structure Rpc where
  epochInfo : Except String EpochInfo
  leaderSchedule : Nat → Except String Schedule

/-- The epoch that is reported to a refresh. -/
def Rpc.reported (r : Rpc) : Option Nat := r.epochInfo.toOption.map EpochInfo.epoch

section

variable (b58 : String → Option Bytes)

def decodePubkey (key : String) : Option Bytes := (b58 key).filter fun bytes => bytes.length == 32

/-- The slots of one leader. -/
def assign (pubkey : Bytes) : List Nat → List (Option Bytes) → List (Option Bytes)
  | [], leaders => leaders
  | i :: indices, leaders => assign pubkey indices (leaders.set i (some pubkey))

/-- The loop of `build_leaders`. -/
def fill : List (String × List Nat) → List (Option Bytes) → List (Option Bytes)
  | [], leaders => leaders
  | (key, indices) :: rest, leaders =>
    match decodePubkey b58 key with
    | some pubkey => fill rest (assign pubkey indices leaders)
    | none => fill rest leaders

def buildLeaders (schedule : Schedule) : Except String (List (Option Bytes)) :=
  match (schedule.entries.flatMap Prod.snd).max? with
  | none => .error "empty leader schedule"
  | some max =>
    if max ≥ MAX_SCHEDULE_SLOTS then
      .error s!"leader schedule index {max} exceeds sanity cap {MAX_SCHEDULE_SLOTS}"
    else .ok (fill b58 schedule.entries (List.replicate (max + 1) none))

/-! ## Refreshing -/

/-- The second check is the one under the write lock. -/
def ensureEpoch (rpc : Rpc) (cache : Cache) (epoch firstSlot : Nat) : Cache × Except String Unit :=
  if cache.any fun x => x.epoch == epoch then (cache, .ok ())
  else
    match rpc.leaderSchedule firstSlot with
    | .error e => (cache, .error e)
    | .ok schedule =>
      match buildLeaders b58 schedule with
      | .error e => (cache, .error e)
      | .ok leaders =>
        if cache.any fun x => x.epoch == epoch then (cache, .ok ())
        else (cache ++ [⟨epoch, firstSlot, leaders⟩], .ok ())

/-- What a refresh leaves, every cache that a lookup can meet while it runs, and how it ends. -/
structure Pass where
  after : Cache
  seen : List Cache
  result : Except String Unit
  prefetched : Bool

/-- A refresh that ends before it touches the cache. -/
def Pass.failed (cache : Cache) (e : String) : Pass :=
  { after := cache, seen := [cache], result := .error e, prefetched := false }

def refresh (rpc : Rpc) (cache : Cache) : Pass :=
  match rpc.epochInfo with
  | .error e => .failed cache e
  | .ok info =>
    if info.absoluteSlot < info.slotIndex then
      .failed cache s!"getEpochInfo slot_index {info.slotIndex} > absolute_slot {info.absoluteSlot}"
    else
      let firstSlot := info.absoluteSlot - info.slotIndex
      let nextFirstSlot := firstSlot + info.slotsInEpoch
      if nextFirstSlot ≥ 2 ^ 64 then .failed cache "epoch first_slot + slots_in_epoch overflows u64"
      else
        let kept := cache.filter fun x => info.epoch ≤ x.epoch
        match ensureEpoch b58 rpc kept info.epoch firstSlot with
        | (current, .error e) =>
          { after := current, seen := [cache, kept, current], result := .error e, prefetched := false }
        | (current, .ok ()) =>
          let next := ensureEpoch b58 rpc current ((info.epoch + 1) % 2 ^ 64) nextFirstSlot
          { after := next.1, seen := [cache, kept, current, next.1], result := .ok (),
            prefetched := next.2.isOk }

/-- The refresher, one refresh after the other. -/
def refresher : Machine Cache Rpc Pass :=
  ⟨fun cache rpc => ((refresh b58 rpc cache).after, refresh b58 rpc cache)⟩

end

/-! ## A chain -/

/-- A fixed epoch layout, and the base58 key of every slot's leader. -/
structure Chain where
  first : Nat → Nat
  grows : ∀ e, first e < first (e + 1)
  key : Nat → String

namespace Chain

variable (ch : Chain) (b58 : String → Option Bytes)

/-- The slot is one of the epoch. -/
def InEpoch (e slot : Nat) : Prop := ch.first e ≤ slot ∧ slot < ch.first (e + 1)

/-- The true leader of a slot, if its key decodes. -/
def leader (slot : Nat) : Option Bytes := decodePubkey b58 (ch.key slot)

/-- The answers that come are the chain's: the reported epoch is that of the slot it comes with, and a schedule lists
every slot of its epoch under its leader's key, and nothing else. -/
structure Consistent (r : Rpc) : Prop where
  info : ∀ i, r.epochInfo = .ok i → ch.InEpoch i.epoch i.absoluteSlot ∧
    i.absoluteSlot = ch.first i.epoch + i.slotIndex ∧ ch.first (i.epoch + 1) = ch.first i.epoch + i.slotsInEpoch
  schedule : ∀ slot e s, r.leaderSchedule slot = .ok s → ch.InEpoch e slot → ∀ key i,
    (∃ indices, (key, indices) ∈ s.entries ∧ i ∈ indices) ↔
      ch.InEpoch e (ch.first e + i) ∧ ch.key (ch.first e + i) = key

/-- An epoch as the cache is to hold it. -/
def cached (e : Nat) : EpochLeaders :=
  ⟨e, ch.first e, (List.range (ch.first (e + 1) - ch.first e)).map fun i => ch.leader b58 (ch.first e + i)⟩

/-- Every cached epoch is as the chain has it, and none is cached twice. -/
structure Good (c : Cache) : Prop where
  once : (epochs c).Nodup
  right : ∀ x ∈ c, x = ch.cached b58 x.epoch

/-- Every slot of the epoch whose leader's key decodes resolves to it. -/
def Resolves (c : Cache) (e : Nat) : Prop :=
  ∀ slot k, ch.InEpoch e slot → ch.leader b58 slot = some k → LeaderSchedule.leader c slot = some k

end Chain

/-! ## Loading an epoch -/

section

variable {b58 : String → Option Bytes} {entries : List (String × List Nat)} {ls : List (Option Bytes)} {i : Nat}
  {d : Option Bytes}

@[simp] theorem length_assign (pubkey : Bytes) : ∀ (indices : List Nat) (ls : List (Option Bytes)),
    (assign pubkey indices ls).length = ls.length
  | [], _ => rfl
  | i :: indices, ls => by rw [assign, length_assign pubkey indices, List.length_set]

/-- A slot stays as it is where it is not listed, or is the leader's already. -/
theorem assign_keeps {pubkey : Bytes} : ∀ (indices : List Nat) {ls : List (Option Bytes)},
    ls[i]? = some d → (i ∈ indices → d = some pubkey) → (assign pubkey indices ls)[i]? = some d
  | [], _, h, _ => h
  | j :: indices, ls, h, hd => by
    refine assign_keeps indices ?_ fun hi => hd (List.mem_cons_of_mem j hi)
    rw [List.getElem?_set]
    split
    · next hji =>
      subst hji
      rw [if_pos (List.getElem?_eq_some_iff.mp h).1, hd List.mem_cons_self]
    · exact h

/-- A listed slot is the leader's. -/
theorem assign_listed {pubkey : Bytes} : ∀ (indices : List Nat) {ls : List (Option Bytes)},
    i ∈ indices → i < ls.length → (assign pubkey indices ls)[i]? = some (some pubkey)
  | j :: indices, ls, hi, hlt => by
    rcases List.mem_cons.mp hi with rfl | hi
    · exact assign_keeps indices (List.getElem?_set_self hlt) fun _ => rfl
    · exact assign_listed indices hi (by rwa [List.length_set])

@[simp] theorem length_fill : ∀ (entries : List (String × List Nat)) (ls : List (Option Bytes)),
    (fill b58 entries ls).length = ls.length
  | [], _ => rfl
  | (key, indices) :: rest, ls => by
    unfold fill
    split
    · rw [length_fill rest, length_assign]
    · exact length_fill rest ls

/-- A slot that holds what all its keys decode to keeps it. -/
theorem fill_keeps : ∀ {entries : List (String × List Nat)} {ls : List (Option Bytes)},
    (∀ en ∈ entries, i ∈ en.2 → decodePubkey b58 en.1 = d) → ls[i]? = some d → (fill b58 entries ls)[i]? = some d
  | [], _, _, h => h
  | (key, indices) :: rest, ls, hagree, h => by
    have hrest : ∀ en ∈ rest, i ∈ en.2 → decodePubkey b58 en.1 = d :=
      fun en hen => hagree en (List.mem_cons_of_mem _ hen)
    unfold fill
    split
    · next pubkey hkey =>
      exact fill_keeps hrest (assign_keeps indices h fun hi => (hagree _ List.mem_cons_self hi).symm.trans hkey)
    · exact fill_keeps hrest h

/-- An empty slot that is listed ends up holding what all its keys decode to. -/
theorem fill_listed : ∀ {entries : List (String × List Nat)} {ls : List (Option Bytes)},
    (∀ en ∈ entries, i ∈ en.2 → decodePubkey b58 en.1 = d) → (∃ en ∈ entries, i ∈ en.2) → ls[i]? = some none →
      (fill b58 entries ls)[i]? = some d
  | (key, indices) :: rest, ls, hagree, hlisted, h => by
    have hrest : ∀ en ∈ rest, i ∈ en.2 → decodePubkey b58 en.1 = d :=
      fun en hen => hagree en (List.mem_cons_of_mem _ hen)
    by_cases hi : i ∈ indices
    · have hkey : decodePubkey b58 key = d := hagree _ List.mem_cons_self hi
      unfold fill
      split
      · next pubkey hpubkey =>
        rw [← hkey, hpubkey] at hrest ⊢
        exact fill_keeps hrest (assign_listed indices hi (List.getElem?_eq_some_iff.mp h).1)
      · next hnone =>
        rw [← hkey, hnone] at hrest ⊢
        exact fill_keeps hrest h
    · have hlisted : ∃ en ∈ rest, i ∈ en.2 := by
        obtain ⟨en, hen, hmem⟩ := hlisted
        rcases List.mem_cons.mp hen with rfl | hen
        · exact absurd hmem hi
        · exact ⟨en, hen, hmem⟩
      unfold fill
      split
      · exact fill_listed hrest hlisted (assign_keeps indices h fun hmem => absurd hmem hi)
      · exact fill_listed hrest hlisted h

end

section

variable {ch : Chain} {b58 : String → Option Bytes} {rpc : Rpc} {c c' : Cache} {e n slot : Nat} {k : Bytes}

/-- **A schedule that is built from a consistent answer is the chain's.** -/
theorem buildLeaders_right {s : Schedule} {leaders : List (Option Bytes)}
    (hs : ∀ key i, (∃ indices, (key, indices) ∈ s.entries ∧ i ∈ indices) ↔
      ch.InEpoch e (ch.first e + i) ∧ ch.key (ch.first e + i) = key)
    (h : buildLeaders b58 s = .ok leaders) : leaders = (ch.cached b58 e).leaders := by
  have hlisted : ∀ i, i ∈ s.entries.flatMap Prod.snd ↔ ch.first e + i < ch.first (e + 1) := by
    intro i
    rw [List.mem_flatMap]
    constructor
    · rintro ⟨⟨key, indices⟩, hen, hi⟩
      exact ((hs key i).mp ⟨indices, hen, hi⟩).1.2
    · intro hlt
      obtain ⟨indices, hen, hi⟩ := (hs _ i).mpr ⟨⟨Nat.le_add_right _ _, hlt⟩, rfl⟩
      exact ⟨(_, indices), hen, hi⟩
  unfold buildLeaders at h
  split at h
  · cases h
  · next max hmax =>
    split at h
    · cases h
    · injection h with h
      subst h
      obtain ⟨hmem, hle⟩ := List.max?_eq_some_iff.mp hmax
      -- the largest index is that of the epoch's last slot
      have hlen : max + 1 = ch.first (e + 1) - ch.first e := by
        have hin := (hlisted max).mp hmem
        have hout : ¬ ch.first e + (max + 1) < ch.first (e + 1) := by
          intro hlt
          have := hle _ ((hlisted _).mpr hlt)
          omega
        omega
      refine List.ext_getElem? fun i => ?_
      by_cases hi : i < max + 1
      · have hleft : (fill b58 s.entries (List.replicate (max + 1) none))[i]? =
            some (ch.leader b58 (ch.first e + i)) := by
          refine fill_listed (fun en hen hmem => ?_) ?_ (List.getElem?_replicate_of_lt hi)
          · rw [← ((hs en.1 i).mp ⟨en.2, hen, hmem⟩).2]
            rfl
          · exact List.mem_flatMap.mp ((hlisted i).mpr (by omega))
        rw [hleft]
        simp [Chain.cached, ← hlen, hi]
      · rw [List.getElem?_eq_none (by simpa using hi), List.getElem?_eq_none (by simpa [Chain.cached, ← hlen] using hi)]

theorem mem_epochs : e ∈ epochs c ↔ ∃ x ∈ c, x.epoch = e := List.mem_map

theorem any_epoch : (c.any fun x => x.epoch == e) = true ↔ e ∈ epochs c := by
  simp [mem_epochs]

theorem Chain.Good.nil : ch.Good b58 [] := ⟨List.nodup_nil, fun x hx => (by cases hx)⟩

theorem Chain.Good.filter (h : ch.Good b58 c) (p : EpochLeaders → Bool) : ch.Good b58 (c.filter p) where
  once := h.once.sublist (List.filter_sublist.map _)
  right x hx := h.right x (List.mem_filter.mp hx).1

theorem Chain.Good.push (h : ch.Good b58 c) (he : e ∉ epochs c) : ch.Good b58 (c ++ [ch.cached b58 e]) where
  once := by
    unfold epochs
    rw [List.map_append]
    refine List.nodup_append.mpr ⟨h.once, List.pairwise_singleton _ _, fun n hn m hm => ?_⟩
    rw [List.mem_singleton.mp hm]
    rintro rfl
    exact he hn
  right x hx := by
    rcases List.mem_append.mp hx with hx | hx
    · exact h.right x hx
    · rw [List.mem_singleton.mp hx]
      rfl

/-- What `ensure_epoch` does: the cache keeps its entries and gets the epoch's at most, and has it where it succeeds. -/
theorem ensureEpoch_spec (hrpc : ch.Consistent rpc) (h : ch.Good b58 c) :
    ch.Good b58 (ensureEpoch b58 rpc c e (ch.first e)).1 ∧
      (∀ n, n ∈ epochs c → n ∈ epochs (ensureEpoch b58 rpc c e (ch.first e)).1) ∧
      (∀ n, n ∈ epochs (ensureEpoch b58 rpc c e (ch.first e)).1 → n ∈ epochs c ∨ n = e) ∧
      ((ensureEpoch b58 rpc c e (ch.first e)).2 = .ok () → e ∈ epochs (ensureEpoch b58 rpc c e (ch.first e)).1) := by
  unfold ensureEpoch
  split
  · next hany => exact ⟨h, fun n hn => hn, fun n hn => .inl hn, fun _ => any_epoch.mp hany⟩
  · next hany =>
    have he : e ∉ epochs c := fun he => hany (any_epoch.mpr he)
    split
    · exact ⟨h, fun n hn => hn, fun n hn => .inl hn, fun hok => (by cases hok)⟩
    · next s hs =>
      split
      · exact ⟨h, fun n hn => hn, fun n hn => .inl hn, fun hok => (by cases hok)⟩
      · next leaders hleaders =>
        have hright := buildLeaders_right (hrpc.schedule _ e s hs ⟨Nat.le_refl _, ch.grows e⟩) hleaders
        have hpushed : (⟨e, ch.first e, leaders⟩ : EpochLeaders) = ch.cached b58 e := by
          rw [hright]
          rfl
        rw [hpushed]
        have hepochs : epochs (c ++ [ch.cached b58 e]) = epochs c ++ [e] := by
          unfold epochs
          rw [List.map_append]
          rfl
        dsimp only
        rw [hepochs]
        refine ⟨h.push he, fun n hn => List.mem_append_left _ hn, fun n hn => ?_, fun _ => by simp⟩
        simpa using hn

end

/-! ## Refreshing -/

/-- What a refresh does to a cache, given the epoch that is reported to it. -/
structure Refreshed (ch : Chain) (b58 : String → Option Bytes) (c : Cache) (reported : Option Nat) (p : Pass) :
    Prop where
  after : p.after ∈ p.seen
  good : ∀ c' ∈ p.seen, ch.Good b58 c'
  kept : ∀ c' ∈ p.seen, ∀ e ∈ epochs c, (∀ n, reported = some n → n ≤ e) → e ∈ epochs c'
  origin : ∀ c' ∈ p.seen, (∀ e ∈ epochs c', e ∈ epochs c) ∨
    ∃ n, reported = some n ∧ ∀ e ∈ epochs c', e ∈ epochs c ∧ n ≤ e ∨ e = n ∨ e = n + 1
  loaded : p.result = .ok () → ∀ n, reported = some n → n ∈ epochs p.after
  prefetched : p.prefetched = true → ∀ n, reported = some n → n + 1 ∈ epochs p.after

/-- A cache that a refresh with reported epoch `n` passes through once it has evicted. -/
structure Stage (ch : Chain) (b58 : String → Option Bytes) (c : Cache) (n : Nat) (c' : Cache) : Prop where
  good : ch.Good b58 c'
  kept : ∀ e ∈ epochs c, n ≤ e → e ∈ epochs c'
  origin : ∀ e ∈ epochs c', e ∈ epochs c ∧ n ≤ e ∨ e = n ∨ e = n + 1

section

variable {ch : Chain} {b58 : String → Option Bytes} {rpc : Rpc} {c c' : Cache} {e n : Nat}

theorem Chain.le_first (ch : Chain) : ∀ e, e ≤ ch.first e
  | 0 => Nat.zero_le _
  | e + 1 => Nat.lt_of_le_of_lt (ch.le_first e) (ch.grows e)

theorem eq_ok_of_isOk : ∀ {result : Except String Unit}, result.isOk = true → result = .ok ()
  | .ok _, _ => rfl

theorem stage_evicted (h : ch.Good b58 c) (n : Nat) : Stage ch b58 c n (c.filter fun x => n ≤ x.epoch) := by
  have hmem : ∀ e, e ∈ epochs (c.filter fun x => decide (n ≤ x.epoch)) ↔ e ∈ epochs c ∧ n ≤ e := by
    intro e
    simp only [mem_epochs, List.mem_filter, decide_eq_true_eq]
    constructor
    · rintro ⟨x, ⟨hx, hn⟩, rfl⟩
      exact ⟨⟨x, hx, rfl⟩, hn⟩
    · rintro ⟨⟨x, hx, rfl⟩, hn⟩
      exact ⟨x, ⟨hx, hn⟩, rfl⟩
  exact ⟨h.filter _, fun e he hn => (hmem e).mpr ⟨he, hn⟩, fun e he => .inl ((hmem e).mp he)⟩

/-- Loading the reported epoch or the next one. -/
theorem Stage.ensured (hrpc : ch.Consistent rpc) (h : Stage ch b58 c n c') (he : e = n ∨ e = n + 1) :
    Stage ch b58 c n (ensureEpoch b58 rpc c' e (ch.first e)).1 := by
  obtain ⟨hgood, hkeeps, horigin, -⟩ := ensureEpoch_spec (e := e) hrpc h.good
  refine ⟨hgood, fun m hm hn => hkeeps m (h.kept m hm hn), fun m hm => ?_⟩
  rcases horigin m hm with hm | rfl
  · exact h.origin m hm
  · exact .inr he

theorem failed_refreshed (h : ch.Good b58 c) (reported : Option Nat) (err : String) :
    Refreshed ch b58 c reported (.failed c err) where
  after := List.mem_singleton_self c
  good c' hc' := by rwa [List.mem_singleton.mp hc']
  kept c' hc' e he _ := by rwa [List.mem_singleton.mp hc']
  origin c' hc' := by
    rw [List.mem_singleton.mp hc']
    exact .inl fun e he => he
  loaded h := by cases h
  prefetched h := by cases h

/-- A refresh whose caches are the one it found and stages of it. -/
theorem staged_refreshed {p : Pass} {stages : List Cache} (h : ch.Good b58 c) (hseen : p.seen = c :: stages)
    (hstages : ∀ c' ∈ stages, Stage ch b58 c n c') (hafter : p.after ∈ stages)
    (hloaded : p.result = .ok () → n ∈ epochs p.after) (hprefetched : p.prefetched = true → n + 1 ∈ epochs p.after) :
    Refreshed ch b58 c (some n) p where
  after := by
    rw [hseen]
    exact List.mem_cons_of_mem c hafter
  good c' hc' := by
    rcases List.mem_cons.mp (hseen ▸ hc') with rfl | hc'
    · exact h
    · exact (hstages c' hc').good
  kept c' hc' e he hn := by
    rcases List.mem_cons.mp (hseen ▸ hc') with rfl | hc'
    · exact he
    · exact (hstages c' hc').kept e he (hn n rfl)
  origin c' hc' := by
    rcases List.mem_cons.mp (hseen ▸ hc') with rfl | hc'
    · exact .inl fun e he => he
    · exact .inr ⟨n, rfl, (hstages c' hc').origin⟩
  loaded hok m hm := by
    cases hm
    exact hloaded hok
  prefetched hok m hm := by
    cases hm
    exact hprefetched hok

/-- **The step.** A refresh that the chain answers. -/
theorem refresh_spec (hrpc : ch.Consistent rpc) (h : ch.Good b58 c) :
    Refreshed ch b58 c rpc.reported (refresh b58 rpc c) := by
  unfold refresh Rpc.reported
  cases hinfo : rpc.epochInfo with
  | error err => exact failed_refreshed h _ err
  | ok info =>
    dsimp only
    split
    · exact failed_refreshed h _ _
    split
    · exact failed_refreshed h _ _
    next hover =>
    obtain ⟨-, habs, hlen⟩ := hrpc.info info hinfo
    have hfirst : info.absoluteSlot - info.slotIndex = ch.first info.epoch := by omega
    -- the overflow check leaves no epoch whose successor wraps
    have hwrap : (info.epoch + 1) % 2 ^ 64 = info.epoch + 1 := by
      have := ch.le_first (info.epoch + 1)
      exact Nat.mod_eq_of_lt (by omega)
    rw [hfirst, ← hlen, hwrap]
    have hkept := stage_evicted h info.epoch
    have hcurrent := hkept.ensured hrpc (.inl rfl)
    have hloaded := (ensureEpoch_spec (e := info.epoch) hrpc hkept.good).2.2.2
    generalize ensureEpoch b58 rpc _ info.epoch (ch.first info.epoch) = loaded at hcurrent hloaded ⊢
    obtain ⟨current, result⟩ := loaded
    cases result with
    | error err =>
      refine staged_refreshed h rfl ?_ (List.mem_cons_of_mem _ (List.mem_singleton_self _)) (fun hok => (by cases hok))
        (fun hok => (by cases hok))
      simpa using ⟨hkept, hcurrent⟩
    | ok _ =>
      have hnext := hcurrent.ensured hrpc (.inr rfl)
      obtain ⟨-, hkeeps, -, hprefetched⟩ := ensureEpoch_spec (e := info.epoch + 1) hrpc hcurrent.good
      refine staged_refreshed h rfl ?_ (List.mem_cons_of_mem _ (List.mem_cons_of_mem _ (List.mem_singleton_self _)))
        (fun _ => hkeeps _ (hloaded rfl)) (fun hok => hprefetched ?_)
      · simpa using ⟨hkept, hcurrent, hnext⟩
      · exact eq_ok_of_isOk hok

end

/-! ## Lookups -/

section

variable {ch : Chain} {b58 : String → Option Bytes} {c : Cache} {e slot : Nat} {k : Bytes}

theorem cached_leader (h : ch.InEpoch e slot) : (ch.cached b58 e).leader slot = ch.leader b58 slot := by
  have hlt : slot - ch.first e < ch.first (e + 1) - ch.first e := Nat.sub_lt_sub_right h.1 h.2
  have hslot : ch.first e + (slot - ch.first e) = slot := Nat.add_sub_cancel' h.1
  simp [EpochLeaders.leader, Chain.cached, h.1, hlt, hslot]

theorem cached_leader_outside (h : ¬ ch.InEpoch e slot) : (ch.cached b58 e).leader slot = none := by
  unfold EpochLeaders.leader
  split
  · next hle =>
    change ch.first e ≤ slot at hle
    have hout : ch.first (e + 1) - ch.first e ≤ slot - ch.first e := by
      have : ¬ slot < ch.first (e + 1) := fun hlt => h ⟨hle, hlt⟩
      omega
    rw [List.getElem?_eq_none (by simpa [Chain.cached] using hout)]
    rfl
  · rfl

/-- **A lookup never finds a wrong leader.** -/
theorem leader_sound (h : ch.Good b58 c) (hk : leader c slot = some k) : ch.leader b58 slot = some k := by
  obtain ⟨x, hx, hfound⟩ := List.exists_of_findSome?_eq_some hk
  rw [h.right x hx] at hfound
  by_cases hin : ch.InEpoch x.epoch slot
  · rwa [cached_leader hin] at hfound
  · rw [cached_leader_outside hin] at hfound
    cases hfound

theorem leader_resolves (h : ch.Good b58 c) (he : e ∈ epochs c) : ch.Resolves b58 c e := by
  intro slot k hin hk
  obtain ⟨x, hx, rfl⟩ := mem_epochs.mp he
  have hfound : x.leader slot = some k := by
    rw [h.right x hx]
    exact (cached_leader hin).trans hk
  cases hl : leader c slot with
  | none => exact absurd (List.findSome?_eq_none_iff.mp hl x hx) (by simp [hfound])
  | some k' => rw [← leader_sound h hl, hk]

end

/-! ## Runs -/

section

variable {ch : Chain} {b58 : String → Option Bytes} {c : Cache} {e : Nat} {rs us : List Rpc} {r : Rpc}

theorem run_good (hrs : ∀ x ∈ rs, ch.Consistent x) : ch.Good b58 ((refresher b58).exec [] rs) := by
  have hstep : ∀ c x, ch.Consistent x → ch.Good b58 c → ch.Good b58 ((refresher b58).step c x).1 :=
    fun c x hx h => (refresh_spec hx h).good _ (refresh_spec hx h).after
  exact Machine.along_rule hstep rs [] (Machine.along_of_forall rs [] hrs) .nil

/-- An epoch that is cached stays so until a later one is reported. -/
theorem run_keeps : ∀ {us : List Rpc} {c : Cache}, (∀ x ∈ us, ch.Consistent x) → ch.Good b58 c → e ∈ epochs c →
    (∀ n ∈ us.filterMap Rpc.reported, n ≤ e) →
      ∀ c' ∈ c :: ((refresher b58).trace c us).flatMap (fun x => x.2.seen), ch.Good b58 c' ∧ e ∈ epochs c'
  | [], c, _, h, he, _, c', hc' => by
    rw [List.mem_singleton.mp hc']
    exact ⟨h, he⟩
  | x :: us, c, hus, h, he, hle, c', hc' => by
    have hx := refresh_spec (hus x List.mem_cons_self) h
    have hkept : ∀ c' ∈ (refresh b58 x c).seen, e ∈ epochs c' := by
      intro c' hc'
      refine hx.kept c' hc' e he fun n hn => hle n ?_
      exact List.mem_filterMap.mpr ⟨x, List.mem_cons_self, hn⟩
    rcases List.mem_cons.mp hc' with rfl | hc'
    · exact ⟨h, he⟩
    rcases List.mem_append.mp hc' with hc' | hc'
    · exact ⟨hx.good c' hc', hkept c' hc'⟩
    · refine run_keeps (fun y hy => hus y (List.mem_cons_of_mem x hy)) (hx.good _ hx.after) (hkept _ hx.after)
        (fun n hn => hle n ?_) c' (List.mem_cons_of_mem _ hc')
      obtain ⟨y, hy, hn⟩ := List.mem_filterMap.mp hn
      exact List.mem_filterMap.mpr ⟨y, List.mem_cons_of_mem x hy, hn⟩

/-- While the reported epochs do not decrease, only one of them and its successor are cached. -/
theorem run_spans (hrs : ∀ x ∈ rs, ch.Consistent x) (hsorted : (rs.filterMap Rpc.reported).Pairwise (· ≤ ·)) :
    epochs ((refresher b58).exec [] rs) = [] ∨ ∃ m ∈ rs.filterMap Rpc.reported,
      ∀ e ∈ epochs ((refresher b58).exec [] rs), e = m ∨ e = m + 1 := by
  induction rs using List.reverseRecOn with
  | nil => exact .inl rfl
  | append_singleton rs r ih =>
    have hbefore : ∀ x ∈ rs, ch.Consistent x := fun x hx => hrs x (List.mem_append_left _ hx)
    rw [List.filterMap_append, List.pairwise_append] at hsorted
    obtain ⟨hsorted, -, hle⟩ := hsorted
    have hgood : ch.Good b58 ((refresher b58).exec [] rs) := run_good hbefore
    have hr := refresh_spec (hrs r (List.mem_append_right _ (List.mem_singleton_self r))) hgood
    rw [Machine.exec_append, List.filterMap_append]
    show epochs (refresh b58 r _).after = [] ∨ ∃ m ∈ _, ∀ e ∈ epochs (refresh b58 r _).after, _
    rcases hr.origin _ hr.after with hsub | ⟨n, hn, horigin⟩
    · rcases ih hbefore hsorted with hnil | ⟨m, hm, hspan⟩
      · rw [hnil] at hsub
        exact .inl (List.eq_nil_iff_forall_not_mem.mpr fun e he => List.not_mem_nil (hsub e he))
      · exact .inr ⟨m, List.mem_append_left _ hm, fun e he => hspan e (hsub e he)⟩
    · have hreported : n ∈ [r].filterMap Rpc.reported := List.mem_filterMap.mpr ⟨r, List.mem_singleton_self r, hn⟩
      refine .inr ⟨n, List.mem_append_right _ hreported, fun e he => ?_⟩
      rcases horigin e he with ⟨hold, hge⟩ | hnew
      · rcases ih hbefore hsorted with hnil | ⟨m, hm, hspan⟩
        · rw [hnil] at hold
          cases hold
        · have := hle m hm n hreported
          have := hspan e hold
          omega
      · exact hnew

/-- **Lookups are never wrong, and rollovers leave no gap.** In every run that the chain answers: what a refresh lets
a lookup meet caches no epoch twice and answers with the true leader or none; once it succeeded, the reported epoch
resolves until a later one is reported; once it prefetched, so does the next epoch until one past it is reported; and
while the reported epochs do not decrease, two epochs at most are cached after it. -/
theorem lookups_are_right (h : ∀ x ∈ rs ++ r :: us, ch.Consistent x) :
    let p := refresh b58 r ((refresher b58).exec [] rs)
    let since := p.after :: ((refresher b58).trace p.after us).flatMap fun x => x.2.seen
    (∀ c ∈ p.seen, (epochs c).Nodup ∧ ∀ slot k, leader c slot = some k → ch.leader b58 slot = some k) ∧
      (∀ e, r.reported = some e → p.result = .ok () → (∀ n ∈ us.filterMap Rpc.reported, n ≤ e) →
        ∀ c ∈ since, ch.Resolves b58 c e) ∧
      (∀ e, r.reported = some e → p.result = .ok () → p.prefetched = true →
        (∀ n ∈ us.filterMap Rpc.reported, n ≤ e + 1) → ∀ c ∈ since, ch.Resolves b58 c (e + 1)) ∧
      (((rs ++ [r]).filterMap Rpc.reported).Pairwise (· ≤ ·) → p.after.length ≤ 2) := by
  intro p since
  have hrs : ∀ x ∈ rs, ch.Consistent x := fun x hx => h x (List.mem_append_left _ hx)
  have hus : ∀ x ∈ us, ch.Consistent x := fun x hx => h x (List.mem_append_right _ (List.mem_cons_of_mem r hx))
  have hr : ch.Consistent r := h r (List.mem_append_right _ List.mem_cons_self)
  have hp : Refreshed ch b58 ((refresher b58).exec [] rs) r.reported p := refresh_spec hr (run_good hrs)
  have hafter : ch.Good b58 p.after := hp.good _ hp.after
  have hresolves : ∀ e ∈ epochs p.after, (∀ n ∈ us.filterMap Rpc.reported, n ≤ e) →
      ∀ c ∈ since, ch.Resolves b58 c e := by
    intro e he hle c hc
    obtain ⟨hgood, hmem⟩ := run_keeps hus hafter he hle c hc
    exact leader_resolves hgood hmem
  refine ⟨fun c hc => ⟨(hp.good c hc).once, fun slot k => leader_sound (hp.good c hc)⟩, ?_, ?_, fun hsorted => ?_⟩
  · intro e he hok hle
    exact hresolves e (hp.loaded hok e he) hle
  · intro e he _ hpre hle
    exact hresolves (e + 1) (hp.prefetched hpre e he) hle
  · have hall : ∀ x ∈ rs ++ [r], ch.Consistent x := by
      intro x hx
      rcases List.mem_append.mp hx with hx | hx
      · exact hrs x hx
      · rwa [List.mem_singleton.mp hx]
    have hspans : epochs p.after = [] ∨ ∃ m ∈ (rs ++ [r]).filterMap Rpc.reported,
        ∀ e ∈ epochs p.after, e = m ∨ e = m + 1 := by
      have hspans := @run_spans ch b58 _ hall hsorted
      rw [Machine.exec_append] at hspans
      exact hspans
    have hlength : p.after.length = (epochs p.after).length := (List.length_map _).symm
    rw [hlength]
    rcases hspans with hnil | ⟨m, -, hspan⟩
    · rw [hnil]
      exact Nat.zero_le 2
    · have hsub : epochs p.after ⊆ [m, m + 1] := by
        intro e he
        rcases hspan e he with rfl | rfl
        · exact List.mem_cons_self
        · exact List.mem_cons_of_mem _ (List.mem_singleton_self _)
      exact (List.subperm_of_subset hafter.once hsub).length_le

end

/-! ### A run -/

/-- Epochs of two slots; the key of the second does not decode. -/
def twoSlots : Chain where
  first e := 2 * e
  grows e := by omega
  key slot := if slot % 2 = 0 then "11111111111111111111111111111111" else "0"

/-- Base58, on the keys of `twoSlots`: a `1` is a zero byte, and `0` is no digit. -/
def zeros (key : String) : Option Bytes :=
  if key.toList.all fun c => c == '1' then some (List.replicate key.toList.length 0) else none

def twoSlotsSchedule : Schedule := ⟨[("0", [1]), ("11111111111111111111111111111111", [0])], by decide⟩

/-- A node that is in the second slot of an epoch. -/
def twoSlotsRpc (epoch : Nat) : Rpc := ⟨.ok ⟨epoch, 2 * epoch + 1, 1, 2⟩, fun _ => .ok twoSlotsSchedule⟩

/-- A node that is down. -/
def downRpc : Rpc := ⟨.error "getEpochInfo request", fun _ => .error "getLeaderSchedule request"⟩

theorem twoSlotsRpc_consistent (epoch : Nat) : twoSlots.Consistent (twoSlotsRpc epoch) where
  info i hi := by
    injection hi with hi
    subst hi
    refine ⟨⟨Nat.le_succ _, ?_⟩, rfl, ?_⟩
    · show 2 * epoch + 1 < 2 * (epoch + 1)
      omega
    · show 2 * (epoch + 1) = 2 * epoch + 2
      omega
  schedule slot e s hs _ key i := by
    injection hs with hs
    subst hs
    have heven : 2 * e % 2 = 0 := by omega
    have hodd : (2 * e + 1) % 2 = 1 := by omega
    simp only [twoSlotsSchedule, Chain.InEpoch, twoSlots]
    constructor
    · rintro ⟨indices, hmem, hi⟩
      simp only [List.mem_cons, Prod.mk.injEq, List.not_mem_nil, or_false] at hmem
      rcases hmem with ⟨rfl, rfl⟩ | ⟨rfl, rfl⟩
      · rw [List.mem_singleton.mp hi, hodd]
        exact ⟨by omega, rfl⟩
      · rw [List.mem_singleton.mp hi, Nat.add_zero, heven]
        exact ⟨by omega, rfl⟩
    · rintro ⟨⟨-, hlt⟩, rfl⟩
      have hi : i = 0 ∨ i = 1 := by omega
      rcases hi with rfl | rfl
      · exact ⟨[0], by simp [heven], List.mem_singleton_self 0⟩
      · exact ⟨[1], by simp [hodd], List.mem_singleton_self 1⟩

theorem downRpc_consistent (ch : Chain) : ch.Consistent downRpc :=
  ⟨fun i hi => (by cases hi), fun _ _ s hs => (by cases hs)⟩

/-- Epoch 5 and the prefetched epoch 6, over an outage, a lagging node and the rollover. -/
theorem lookups_are_right_rollover :
    let p := refresh zeros (twoSlotsRpc 5) ((refresher zeros).exec [] [downRpc])
    let us := [twoSlotsRpc 4, downRpc, twoSlotsRpc 6]
    let since := p.after :: ((refresher zeros).trace p.after us).flatMap fun x => x.2.seen
    p.result = .ok () ∧ p.prefetched = true ∧ p.after.length ≤ 2 ∧ ∀ c ∈ since, twoSlots.Resolves zeros c 6 := by
  have h : ∀ x ∈ [downRpc] ++ twoSlotsRpc 5 :: [twoSlotsRpc 4, downRpc, twoSlotsRpc 6], twoSlots.Consistent x := by
    simp [twoSlotsRpc_consistent, downRpc_consistent]
  obtain ⟨-, -, hnext, htwo⟩ := @lookups_are_right twoSlots zeros _ _ _ h
  exact ⟨rfl, rfl, htwo (by decide), hnext 5 rfl rfl rfl (by decide)⟩

end EdgeConnect.Shred.LeaderSchedule
