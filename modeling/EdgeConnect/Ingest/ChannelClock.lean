import EdgeConnect.Lib.Machine
import Mathlib.Algebra.Group.Nat.Defs

/-!
# The channel's venue clock (`ChannelClock` in `src/ingest/arbiter.rs`)

Executable model of the venue-time clock of one order-level channel: `newest_ts`, the hatch's sample
and timers, and the frontier before which an event is refused and a removed order forgotten.

* `observe` takes a batch's stamp, `reseat` moves a stuck clock onto the sample, `set none` ends a
  session;
* `Anchored` — everything the clock may ever move to is within the host-clock skew of a wall value it
  was shown;
* `forged_stream_is_bounded` — so no stream of stamps pushes the frontier past a publisher whose stamp
  is within `retention_ns - MAX_FUTURE_SKEW_NS` of the host clock, re-seats are `reseat_after_ns` apart,
  and an observe only moves the clock up by `max_ts_jump_ns`.

Times are `Nat` with the saturating `u64` arithmetic of the source.
-/

set_option autoImplicit false

namespace EdgeConnect.Arbiter

/-! ## The model -/

def MAX_FUTURE_SKEW_NS : Nat := 5000000000

def U64_MAX : Nat := 2 ^ 64 - 1

/-- `u64::saturating_add`. -/
def saturatingAdd (a b : Nat) : Nat := if U64_MAX - b < a then U64_MAX else a + b

/-- The resurrection guard's venue-time tunables. -/
structure BookGuardConfig where
  retentionNs : Nat
  maxTsJumpNs : Nat
  reseatAfterNs : Nat
  deriving DecidableEq, Repr

def BookGuardConfig.DEFAULT : BookGuardConfig where
  retentionNs := 30000000000
  maxTsJumpNs := 5000000000
  reseatAfterNs := 10000000000

/-- `validate`: reject a configuration whose bounds contradict each other. -/
def BookGuardConfig.validate (cfg : BookGuardConfig) : Except String Unit :=
  if cfg.maxTsJumpNs ≥ cfg.retentionNs then
    .error ("--arb-book-ts-jump-secs (" ++ toString (cfg.maxTsJumpNs / 1000000000) ++
      ") must be below --arb-book-retention-secs (" ++ toString (cfg.retentionNs / 1000000000) ++
      "): one accepted jump would otherwise put the whole channel outside the retention window")
  else if cfg.retentionNs ≤ MAX_FUTURE_SKEW_NS then
    .error ("--arb-book-retention-secs (" ++ toString (cfg.retentionNs / 1000000000) ++
      ") must exceed the " ++ toString (MAX_FUTURE_SKEW_NS / 1000000000) ++
      "s host-clock skew the frontier tolerates: below it a publisher stamping just inside that " ++
      "skew holds the frontier above every honest publisher on the channel")
  else .ok ()

/-- Why a stamp did not advance the clock. -/
inductive Bound where
  | jump
  | anchor
  deriving DecidableEq, Repr

/-- The metric label of a bound. -/
def Bound.label : Bound → String
  | .jump => "jump"
  | .anchor => "anchor"

structure ChannelClock where
  newestTs : Option Nat
  movedAt : Nat
  aheadSince : Option Nat
  sample : Option Nat
  deriving DecidableEq, Repr

namespace ChannelClock

def default : ChannelClock := ⟨none, 0, none, none⟩

/-- `set`: the one write of `newest_ts`; a write that consumed the sample clears it and the timer. -/
def set (c : ChannelClock) (ts : Option Nat) (now : Nat) : ChannelClock :=
  let consumed := ts.all fun t => c.sample.all fun s => decide (t ≥ s)
  { newestTs := ts
    movedAt := now
    aheadSince := if consumed then none else c.aheadSince
    sample := if consumed then none else c.sample }

/-- Take a stamp into the hatch's sample. -/
def takeSample (c : ChannelClock) (ts : Nat) : ChannelClock :=
  { c with sample := some (c.sample.elim ts fun s => max s ts) }

/-- Start the ahead timer unless it is running. -/
def markAhead (c : ChannelClock) (now : Nat) : ChannelClock :=
  { c with aheadSince := some (c.aheadSince.getD now) }

/-- The advance of a sampled stamp, which the forward bound may refuse. -/
def advance (c : ChannelClock) (ts now : Nat) (cfg : BookGuardConfig) : ChannelClock × Option Bound :=
  match c.newestTs with
  | none => (c.set (some ts) now, none)
  | some newest =>
    if ts > newest then
      if ts - newest ≤ cfg.maxTsJumpNs then (c.set (some ts) now, none)
      else (c.markAhead now, some .jump)
    else (c, none)

/-- `observe`: take one batch's stamp, returning the bound that refused to advance.  A stamp past the
host-clock cap is sampled at the cap and advances nothing. -/
def observe (c : ChannelClock) (ts now wall : Nat) (cfg : BookGuardConfig) :
    ChannelClock × Option Bound :=
  if ts > saturatingAdd wall MAX_FUTURE_SKEW_NS then
    ((c.markAhead now).takeSample (saturatingAdd wall MAX_FUTURE_SKEW_NS), some .anchor)
  else (c.takeSample ts).advance ts now cfg

/-- `reseat`: move a stuck clock onto the sample, returning whether it did. -/
def reseat (c : ChannelClock) (now : Nat) (cfg : BookGuardConfig) : ChannelClock × Bool :=
  let stuck := decide (now - c.movedAt ≥ cfg.reseatAfterNs)
  let ahead := c.aheadSince.any fun t => decide (now - t ≥ cfg.reseatAfterNs)
  if !stuck && !ahead then (c, false)
  else
    match c.sample with
    | none => (c, false)
    | some sample => ({ c with sample := none }.set (some sample) now, true)

/-- `frontier`: the venue time before which an event is refused and a removed entry forgotten. -/
def frontier (c : ChannelClock) (cfg : BookGuardConfig) : Option Nat :=
  c.newestTs.map fun t => t - cfg.retentionNs

/-- `stamp`: the stamp a batch is judged and recorded by. -/
def stamp (c : ChannelClock) (ts wall : Nat) : Nat :=
  min ts (c.newestTs.getD (saturatingAdd wall MAX_FUTURE_SKEW_NS))

end ChannelClock

/-- Whether a batch judged at `stamp` is refused as past the frontier. -/
def pastFrontier (frontier : Option Nat) (stamp : Nat) : Bool :=
  frontier.any fun f => decide (stamp < f)

/-! ## The clock as a machine -/

/-- One call on a channel clock. -/
inductive ClockCall where
  | observe (ts now wall : Nat)
  | reseat (now : Nat)
  | unset (now : Nat)
  deriving DecidableEq, Repr

/-- What a call answers. -/
inductive ClockReply where
  | observed (bound : Option Bound)
  | reseated (moved : Bool)
  | unit
  deriving DecidableEq, Repr

def clockStep (cfg : BookGuardConfig) (c : ChannelClock) : ClockCall → ChannelClock × ClockReply
  | .observe ts now wall => ((c.observe ts now wall cfg).1, .observed (c.observe ts now wall cfg).2)
  | .reseat now => ((c.reseat now cfg).1, .reseated (c.reseat now cfg).2)
  | .unset now => (c.set none now, .unit)

/-- The clock as a machine over its calls. -/
def clock (cfg : BookGuardConfig) : Machine ChannelClock ClockCall ClockReply := ⟨clockStep cfg⟩

/-- The host-clock value a call passes. -/
def ClockCall.wall : ClockCall → Nat
  | .observe _ _ wall => wall
  | .reseat _ | .unset _ => 0

/-- The largest host-clock value a run passed. -/
def maxWall (calls : List ClockCall) : Nat := (calls.map ClockCall.wall).foldr max 0

/-- The monotonic time of a call. -/
def ClockCall.now : ClockCall → Nat
  | .observe _ now _ => now
  | .reseat now => now
  | .unset now => now

variable {c : ChannelClock} {cfg : BookGuardConfig}

/-! ## The host-clock anchor -/

theorem saturatingAdd_le (a b : Nat) : saturatingAdd a b ≤ a + b := by
  unfold saturatingAdd
  split <;> omega

/-- Nothing the clock holds is above `bound`. -/
structure Anchored (bound : Nat) (c : ChannelClock) : Prop where
  newest : ∀ t, c.newestTs = some t → t ≤ bound
  sample : ∀ t, c.sample = some t → t ≤ bound

theorem Anchored.mono {bound bound' : Nat} (h : Anchored bound c) (hle : bound ≤ bound') :
    Anchored bound' c :=
  ⟨fun t ht => Nat.le_trans (h.newest t ht) hle, fun t ht => Nat.le_trans (h.sample t ht) hle⟩

theorem Anchored.set {bound : Nat} (h : Anchored bound c) {ts : Option Nat}
    (hts : ∀ t, ts = some t → t ≤ bound) (now : Nat) : Anchored bound (c.set ts now) := by
  refine ⟨hts, fun t ht => ?_⟩
  simp only [ChannelClock.set] at ht
  split at ht
  · cases ht
  · exact h.sample t ht

theorem Anchored.takeSample {bound ts : Nat} (h : Anchored bound c) (hts : ts ≤ bound) :
    Anchored bound (c.takeSample ts) := by
  refine ⟨h.newest, fun t ht => ?_⟩
  simp only [ChannelClock.takeSample, Option.some.injEq] at ht
  subst ht
  cases hs : c.sample with
  | none => exact hts
  | some s => exact Nat.max_le.mpr ⟨h.sample s hs, hts⟩

theorem Anchored.advance {bound ts : Nat} (h : Anchored bound c) (hts : ts ≤ bound) (now : Nat) :
    Anchored bound (c.advance ts now cfg).1 := by
  have hset : Anchored bound (c.set (some ts) now) := h.set (fun t ht => by cases ht; exact hts) now
  unfold ChannelClock.advance
  split
  · exact hset
  · split
    · split
      · exact hset
      · exact ⟨h.newest, h.sample⟩
    · exact h

theorem Anchored.observe {wall bound : Nat} (h : Anchored bound c)
    (hwall : saturatingAdd wall MAX_FUTURE_SKEW_NS ≤ bound) (ts now : Nat) :
    Anchored bound (c.observe ts now wall cfg).1 := by
  rw [ChannelClock.observe]
  by_cases hcap : ts > saturatingAdd wall MAX_FUTURE_SKEW_NS
  · rw [if_pos hcap]
    have hmark : Anchored bound (c.markAhead now) := ⟨h.newest, h.sample⟩
    exact hmark.takeSample hwall
  · rw [if_neg hcap]
    have hts : ts ≤ bound := Nat.le_trans (Nat.le_of_not_lt hcap) hwall
    exact (h.takeSample hts).advance hts now

theorem Anchored.reseat {bound : Nat} (h : Anchored bound c) (now : Nat) :
    Anchored bound (c.reseat now cfg).1 := by
  unfold ChannelClock.reseat
  simp only
  split
  · exact h
  · split
    · exact h
    · rename_i sample hs
      have hnone : Anchored bound { c with sample := none } := ⟨h.newest, nofun⟩
      exact hnone.set (fun t ht => by cases ht; exact h.sample sample hs) now

theorem Anchored.step {bound : Nat} (h : Anchored bound c) {call : ClockCall}
    (hwall : saturatingAdd call.wall MAX_FUTURE_SKEW_NS ≤ bound) :
    Anchored bound (clockStep cfg c call).1 := by
  cases call with
  | observe ts now wall => rw [clockStep]; exact h.observe hwall ts now
  | reseat now => rw [clockStep]; exact h.reseat now
  | unset now => rw [clockStep]; exact h.set (fun _ ht => by cases ht) now

/-- Every run is anchored above the host-clock cap of each of its calls. -/
theorem anchored_exec {bound : Nat} (calls : List ClockCall)
    (hwall : ∀ call ∈ calls, saturatingAdd call.wall MAX_FUTURE_SKEW_NS ≤ bound)
    (h : Anchored bound c) : Anchored bound ((clock cfg).exec c calls) :=
  Machine.along_rule (m := clock cfg) (P := Anchored bound) (fun _ _ hc hs => Anchored.step hs hc)
    calls c (Machine.along_of_forall calls c hwall) h

theorem wall_le_maxWall : ∀ {calls : List ClockCall} {call : ClockCall}, call ∈ calls →
    call.wall ≤ maxWall calls
  | c :: cs, call, h => by
    have hmax : maxWall (c :: cs) = max c.wall (maxWall cs) := rfl
    rw [hmax]
    rcases List.mem_cons.mp h with rfl | h
    · exact Nat.le_max_left _ _
    · exact Nat.le_trans (wall_le_maxWall h) (Nat.le_max_right _ _)

theorem anchored_default (bound : Nat) : Anchored bound ChannelClock.default := ⟨nofun, nofun⟩

/-- A stamp within the retention window of the host clock is not past the frontier. -/
theorem Anchored.frontier_le {wall ts : Nat} (h : Anchored (wall + MAX_FUTURE_SKEW_NS) c)
    (hret : MAX_FUTURE_SKEW_NS < cfg.retentionNs)
    (hts : wall - (cfg.retentionNs - MAX_FUTURE_SKEW_NS) ≤ ts) :
    ∀ f, c.frontier cfg = some f → f ≤ c.stamp ts wall := by
  intro f hf
  unfold ChannelClock.frontier at hf
  rw [Option.map_eq_some_iff] at hf
  obtain ⟨newest, hn, rfl⟩ := hf
  have hle := h.newest newest hn
  unfold ChannelClock.stamp
  rw [hn, Option.getD_some]
  omega

/-! ## Re-seats and advances -/

/-- The timers of the clock started at `t` or later. -/
def Since (t : Nat) (c : ChannelClock) : Prop :=
  t ≤ c.movedAt ∧ ∀ a, c.aheadSince = some a → t ≤ a

theorem Since.set {t now : Nat} (h : Since t c) (hnow : t ≤ now) (ts : Option Nat) :
    Since t (c.set ts now) := by
  refine ⟨hnow, fun a ha => ?_⟩
  simp only [ChannelClock.set] at ha
  split at ha
  · cases ha
  · exact h.2 a ha

theorem Since.markAhead {t now : Nat} (h : Since t c) (hnow : t ≤ now) : Since t (c.markAhead now) := by
  refine ⟨h.1, fun a ha => ?_⟩
  simp only [ChannelClock.markAhead, Option.some.injEq] at ha
  subst ha
  cases hs : c.aheadSince with
  | none => exact hnow
  | some s => exact h.2 s hs

theorem Since.takeSample {t : Nat} (h : Since t c) (ts : Nat) : Since t (c.takeSample ts) :=
  ⟨h.1, h.2⟩

theorem Since.advance {t ts now : Nat} (h : Since t c) (hnow : t ≤ now) :
    Since t (c.advance ts now cfg).1 := by
  unfold ChannelClock.advance
  split
  · exact h.set hnow _
  · split
    · split
      · exact h.set hnow _
      · exact h.markAhead hnow
    · exact h

theorem Since.observe {t now : Nat} (h : Since t c) (hnow : t ≤ now) (ts wall : Nat) :
    Since t (c.observe ts now wall cfg).1 := by
  rw [ChannelClock.observe]
  by_cases hcap : ts > saturatingAdd wall MAX_FUTURE_SKEW_NS
  · rw [if_pos hcap]
    exact (h.markAhead hnow).takeSample _
  · rw [if_neg hcap]
    exact (h.takeSample ts).advance hnow

theorem Since.reseat {t now : Nat} (h : Since t c) (hnow : t ≤ now) :
    Since t (c.reseat now cfg).1 := by
  unfold ChannelClock.reseat
  simp only
  split
  · exact h
  · split
    · exact h
    · have hnone : Since t { c with sample := none } := ⟨h.1, h.2⟩
      exact hnone.set hnow _

theorem Since.step {t : Nat} {call : ClockCall} (hnow : t ≤ call.now) (h : Since t c) :
    Since t (clockStep cfg c call).1 := by
  cases call with
  | observe ts now wall => rw [clockStep]; exact h.observe hnow ts wall
  | reseat now => rw [clockStep]; exact h.reseat hnow
  | unset now => rw [clockStep]; exact h.set hnow none

theorem since_exec {t : Nat} (calls : List ClockCall) (hnow : ∀ call ∈ calls, t ≤ call.now)
    (h : Since t c) : Since t ((clock cfg).exec c calls) :=
  Machine.along_rule (m := clock cfg) (P := Since t) (fun _ _ hc hs => Since.step hc hs)
    calls c (Machine.along_of_forall calls c hnow) h

/-- A successful re-seat at `now` restarts both timers. -/
theorem reseat_since {now : Nat} (h : (c.reseat now cfg).2 = true) : Since now (c.reseat now cfg).1 := by
  unfold ChannelClock.reseat at h ⊢
  simp only at h ⊢
  split at h
  · cases h
  · rename_i hdue
    rw [if_neg hdue]
    split at h
    · cases h
    · rename_i sample hs
      exact ⟨Nat.le_refl _, fun a ha => by simp [ChannelClock.set] at ha⟩

/-- A re-seat is due only `reseat_after_ns` after a timer started. -/
theorem reseat_due {t now : Nat} (hs : Since t c) (hle : t ≤ now) (h : (c.reseat now cfg).2 = true) :
    t + cfg.reseatAfterNs ≤ now := by
  unfold ChannelClock.reseat at h
  simp only at h
  split at h
  · cases h
  · rename_i hdue
    rw [Bool.and_eq_true, Bool.not_eq_true', Bool.not_eq_true', decide_eq_false_iff_not] at hdue
    rw [not_and_or, Decidable.not_not, Bool.not_eq_false] at hdue
    rcases hdue with hstuck | hahead
    · have := hs.1; omega
    · rw [Option.any_eq_true] at hahead
      obtain ⟨a, ha, hage⟩ := hahead
      rw [decide_eq_true_eq] at hage
      have := hs.2 a ha
      omega

/-- An observe on a seeded clock moves it up by at most the jump bound, and never back. -/
theorem observe_advance {newest : Nat} (hn : c.newestTs = some newest) (ts now wall : Nat) :
    ∃ n, (c.observe ts now wall cfg).1.newestTs = some n ∧ newest ≤ n ∧
      n ≤ newest + cfg.maxTsJumpNs := by
  rw [ChannelClock.observe]
  by_cases hcap : ts > saturatingAdd wall MAX_FUTURE_SKEW_NS
  · rw [if_pos hcap]
    exact ⟨newest, hn, Nat.le_refl _, Nat.le_add_right _ _⟩
  · rw [if_neg hcap, ChannelClock.advance, show (c.takeSample ts).newestTs = some newest from hn]
    simp only
    split
    · split
      · exact ⟨ts, rfl, by omega, by omega⟩
      · exact ⟨newest, hn, Nat.le_refl _, Nat.le_add_right _ _⟩
    · exact ⟨newest, hn, Nat.le_refl _, Nat.le_add_right _ _⟩

theorem reseat_false {now : Nat} (h : (c.reseat now cfg).2 = false) : (c.reseat now cfg).1 = c := by
  unfold ChannelClock.reseat at h ⊢
  simp only at h ⊢
  split
  · rfl
  · rename_i hdue
    rw [if_neg hdue] at h
    cases hs : c.sample with
    | none => rfl
    | some sample => rw [hs] at h; cases h

theorem validate_ok (h : cfg.validate = .ok ()) :
    cfg.maxTsJumpNs < cfg.retentionNs ∧ MAX_FUTURE_SKEW_NS < cfg.retentionNs := by
  unfold BookGuardConfig.validate at h
  split at h
  · cases h
  · split at h
    · cases h
    · omega

/-! ## Every run -/

/-- **A forged stream cannot push the frontier past honest publishers.** After any run of a valid
configuration: the clock is within the skew of the largest host-clock value passed; a batch stamped
within `retention_ns - MAX_FUTURE_SKEW_NS` of the current host clock is not past the frontier; two
re-seats that moved the clock are `reseat_after_ns` apart; an observe of a seeded clock moves it up by
at most `max_ts_jump_ns` and never back, and a re-seat that did not fire leaves it alone. -/
theorem forged_stream_is_bounded (cfg : BookGuardConfig) (hvalid : cfg.validate = .ok ())
    (calls : List ClockCall) :
    (∀ t, ((clock cfg).exec .default calls).newestTs = some t →
      t ≤ maxWall calls + MAX_FUTURE_SKEW_NS) ∧
    (∀ ts wall, maxWall calls ≤ wall → wall - (cfg.retentionNs - MAX_FUTURE_SKEW_NS) ≤ ts →
      (∀ f, ((clock cfg).exec .default calls).frontier cfg = some f →
        f ≤ ((clock cfg).exec .default calls).stamp ts wall) ∧
      pastFrontier (((clock cfg).exec .default calls).frontier cfg)
        (((clock cfg).exec .default calls).stamp ts wall) = false) ∧
    (∀ pre mid post t₁ t₂, calls = pre ++ .reseat t₁ :: mid ++ .reseat t₂ :: post →
      (calls.Pairwise fun a b => a.now ≤ b.now) →
      (((clock cfg).exec .default pre).reseat t₁ cfg).2 = true →
      (((clock cfg).exec .default (pre ++ .reseat t₁ :: mid)).reseat t₂ cfg).2 = true →
      t₁ + cfg.reseatAfterNs ≤ t₂) ∧
    (∀ newest, ((clock cfg).exec .default calls).newestTs = some newest →
      (∀ ts now wall, ∃ n,
        (((clock cfg).exec .default calls).observe ts now wall cfg).1.newestTs = some n ∧
        newest ≤ n ∧ n ≤ newest + cfg.maxTsJumpNs) ∧
      ∀ now, (((clock cfg).exec .default calls).reseat now cfg).2 = false →
        (((clock cfg).exec .default calls).reseat now cfg).1.newestTs = some newest) := by
  obtain ⟨-, hret⟩ := validate_ok hvalid
  have hanch : Anchored (maxWall calls + MAX_FUTURE_SKEW_NS) ((clock cfg).exec .default calls) := by
    refine anchored_exec calls (fun call hcall => ?_) (anchored_default _)
    exact Nat.le_trans (saturatingAdd_le _ _) (Nat.add_le_add_right (wall_le_maxWall hcall) _)
  refine ⟨hanch.newest, fun ts wall hwall hts => ?_, ?_, fun newest hn => ⟨?_, ?_⟩⟩
  · have hle := (hanch.mono (Nat.add_le_add_right hwall _)).frontier_le hret hts
    refine ⟨hle, ?_⟩
    unfold pastFrontier
    rw [Option.any_eq_false]
    intro f hf
    rw [decide_eq_false_iff_not]
    exact Nat.not_lt.mpr (hle f hf)
  · intro pre mid post t₁ t₂ hcalls hmono h₁ h₂
    rw [hcalls, List.append_assoc, List.pairwise_append] at hmono
    obtain ⟨-, hmono, -⟩ := hmono
    rw [List.cons_append, List.pairwise_cons] at hmono
    rw [Machine.exec_append, Machine.exec_cons] at h₂
    have hsince : Since t₁ ((clock cfg).exec (((clock cfg).exec .default pre).reseat t₁ cfg).1 mid) :=
      since_exec mid (fun call hcall => hmono.1 call (List.mem_append_left _ hcall)) (reseat_since h₁)
    exact reseat_due hsince (hmono.1 (.reseat t₂) (by simp)) h₂
  · exact observe_advance hn
  · intro now hno
    rw [reseat_false hno]; exact hn

/-- A forger stamping at the cap, twice re-seated, then an honest batch. -/
def forgedCalls : List ClockCall :=
  [.observe 100 0 10000000000, .observe 15000000000 1 10000000000, .reseat 10000000000,
    .observe 20000000000 10000000001 11000000000, .reseat 20000000001]

theorem forged_stream_is_bounded_forged :
    ((clock .DEFAULT).exec .default forgedCalls).newestTs = some 16000000000 ∧
    16000000000 ≤ maxWall forgedCalls + MAX_FUTURE_SKEW_NS ∧
    pastFrontier (((clock .DEFAULT).exec .default forgedCalls).frontier .DEFAULT)
      (((clock .DEFAULT).exec .default forgedCalls).stamp 11000000000 12000000000) = false ∧
    10000000000 + BookGuardConfig.DEFAULT.reseatAfterNs ≤ 20000000001 := by
  have h := forged_stream_is_bounded .DEFAULT rfl forgedCalls
  have hn : ((clock .DEFAULT).exec .default forgedCalls).newestTs = some 16000000000 := by decide
  refine ⟨hn, h.1 _ hn, (h.2.1 11000000000 12000000000 (by decide) (by decide)).2, ?_⟩
  exact h.2.2.1 (forgedCalls.take 2) [.observe 20000000000 10000000001 11000000000] [] _ _ rfl
    (by decide) (by decide) (by decide)

end EdgeConnect.Arbiter
