import EdgeConnect.Ingest.Authority

/-!
# The trade matcher (`PathRace` in `src/ingest/path_race.rs`)

Executable model of the matcher that pairs the copies of one trade by content: each signature has a queue of the
arrivals still waiting for a copy from another path, and `order` holds the arrivals of all signatures in order, with an
entry left behind for each one that leaves its queue early.

* `Tidy` — the counter, the queues and the age queue in step, kept by every operation;
* `matcher_bookkeeping` — this over every run, and no match of a clock that does not go back spans more than the window.
-/

set_option autoImplicit false

namespace EdgeConnect.Race

open Arbiter Authority

/-! ## The model -/

inductive Side where
  | buy
  | sell
  | unknown
  deriving DecidableEq, Repr

/-- A trade's cross-path identity. -/
structure Signature where
  scope : ScopeKey
  symbol : String
  priceBits : UInt64
  sizeBits : UInt64
  aggressor : Side
  deriving DecidableEq, Repr

/-- One path's unmatched arrival. -/
structure Arrival where
  path : Transport
  recvNs : Nat
  deriving DecidableEq, Repr

/-- A matched pair: both paths delivered the same trade. -/
structure Match where
  scope : ScopeKey
  first : Transport
  second : Transport
  deltaNs : Nat
  deriving DecidableEq, Repr

/-- The arguments of `on_trade`. -/
structure Delivery where
  scope : ScopeKey
  symbol : String
  price : F64
  size : F64
  aggressor : Side
  path : Transport
  recvNs : Nat
  deriving DecidableEq, Repr

def Delivery.signature (d : Delivery) : Signature := ⟨d.scope, d.symbol, d.price.bits, d.size.bits, d.aggressor⟩

def Delivery.arrival (d : Delivery) : Arrival := ⟨d.path, d.recvNs⟩

/-- Cap on `order` entries, arrivals and tombstones alike. -/
def MAX_PENDING : Nat := 2 ^ 16

/-- Cap on one signature's queue. -/
def MAX_PER_SIGNATURE : Nat := 8

def MAX_UNMATCHED_KEYS : Nat := 1024

structure PathRace where
  windowNs : Nat
  pending : FinMap Signature (List Arrival)
  order : List (Signature × Nat)
  live : Nat
  unmatched : FinMap (ScopeKey × Transport) Nat

namespace PathRace

def new (windowNs : Nat) : PathRace := ⟨windowNs, ∅, [], 0, ∅⟩

/-- The queue of a signature. -/
def queue (s : PathRace) (sig : Signature) : List Arrival := (s.pending.get sig).getD []

/-- Remove the first arrival of a queue that passes a test; a queue left empty leaves the map. -/
def remove (s : PathRace) (sig : Signature) (p : Arrival → Bool) : PathRace :=
  let q := (s.queue sig).eraseP p
  { s with
    pending := if q.isEmpty then s.pending.erase sig else s.pending.insert sig q
    live := s.live - 1 }

def dropArrival (s : PathRace) (sig : Signature) (atNs : Nat) : PathRace × Option Transport :=
  match (s.queue sig).find? fun a => a.recvNs = atNs with
  | none => (s, none)
  | some a => (s.remove sig fun a => a.recvNs = atNs, some a.path)

def recordUnmatched (s : PathRace) (scope : ScopeKey) (path : Transport) : PathRace :=
  match s.unmatched.get (scope, path) with
  | some n => { s with unmatched := s.unmatched.insert (scope, path) (n + 1) }
  | none =>
    if s.unmatched.size < MAX_UNMATCHED_KEYS then { s with unmatched := s.unmatched.insert (scope, path) 1 }
    else s

/-- The entry at the front of `order` is popped and its arrival dropped, unless it left its queue before. -/
def popFront (s : PathRace) (sig : Signature) (atNs : Nat) (rest : List (Signature × Nat)) :
    PathRace × Option Transport :=
  { s with order := rest }.dropArrival sig atNs

/-- The loop of `evict_stale` over `order`. -/
def evictLoop (nowNs : Nat) : List (Signature × Nat) → PathRace → FinMap Transport Nat → PathRace × FinMap Transport Nat
  | [], s, dropped => (s, dropped)
  | (sig, atNs) :: rest, s, dropped =>
    if nowNs - atNs ≤ s.windowNs then (s, dropped)
    else
      match s.popFront sig atNs rest with
      | (s, none) => evictLoop nowNs rest s dropped
      | (s, some path) =>
        evictLoop nowNs rest (s.recordUnmatched sig.scope path) (dropped.insert path ((dropped.get path).getD 0 + 1))

def evictStale (s : PathRace) (nowNs : Nat) : PathRace × FinMap Transport Nat := evictLoop nowNs s.order s ∅

/-- The loop of `push` over `order`. -/
def makeRoom : List (Signature × Nat) → PathRace → PathRace
  | [], s => s
  | (sig, atNs) :: rest, s =>
    if rest.length + 1 ≥ MAX_PENDING then makeRoom rest (s.popFront sig atNs rest).1 else s

def push (s : PathRace) (sig : Signature) (arrival : Arrival) : PathRace :=
  let s := makeRoom s.order s
  let q := s.queue sig
  let (q, live) := if q.length ≥ MAX_PER_SIGNATURE then (q.tail, s.live - 1) else (q, s.live)
  { s with
    order := s.order ++ [(sig, arrival.recvNs)]
    pending := s.pending.insert sig (q ++ [arrival])
    live := live + 1 }

/-- The oldest arrival of a trade's queue that came from another path. -/
def peer (s : PathRace) (d : Delivery) : Option Arrival := (s.queue d.signature).find? fun a => a.path ≠ d.path

def onTrade (s : PathRace) (d : Delivery) : PathRace × Option Match :=
  let s := (s.evictStale d.recvNs).1
  match s.peer d with
  | some peer =>
    (s.remove d.signature fun a => a.path ≠ d.path, some ⟨d.scope, peer.path, d.path, d.recvNs - peer.recvNs⟩)
  | none => (s.push d.signature d.arrival, none)

def drainUnmatched (s : PathRace) : PathRace × FinMap (ScopeKey × Transport) Nat :=
  ({ s with unmatched := ∅ }, s.unmatched)

end PathRace

/-- The calls of the matcher, and what each returns. -/
inductive Call where
  | onTrade (d : Delivery)
  | evictStale (nowNs : Nat)
  | drainUnmatched

inductive Reply where
  | matched (m : Option Match)
  | dropped (counts : FinMap Transport Nat)
  | drained (counts : FinMap (ScopeKey × Transport) Nat)

def step (s : PathRace) : Call → PathRace × Reply
  | .onTrade d => ((s.onTrade d).1, .matched (s.onTrade d).2)
  | .evictStale nowNs => ((s.evictStale nowNs).1, .dropped (s.evictStale nowNs).2)
  | .drainUnmatched => (s.drainUnmatched.1, .drained s.drainUnmatched.2)

def machine : Machine PathRace Call Reply := ⟨step⟩

/-! ## The queues -/

namespace PathRace

variable {s : PathRace} {sig : Signature} {p : Arrival → Bool} {a : Arrival} {atNs : Nat}

/-- What is found is what is taken out. -/
theorem find_split {α : Type*} {q : List α} {p : α → Bool} {a : α} (h : q.find? p = some a) :
    ∃ l r, q = l ++ a :: r ∧ q.eraseP p = l ++ r := by
  obtain ⟨ha, l, r, rfl, hl⟩ := List.find?_eq_some_iff_append.mp h
  refine ⟨l, r, rfl, ?_⟩
  rw [List.eraseP_append_right _ fun x hx => by simpa using hl x hx, List.eraseP_cons_of_pos ha]

theorem queue_remove (sig' : Signature) :
    (s.remove sig p).queue sig' = if sig' = sig then (s.queue sig).eraseP p else s.queue sig' := by
  unfold remove queue
  simp only
  split
  · rename_i hempty
    rw [FinMap.get_erase]
    split
    · rename_i heq
      rw [Option.getD_none, List.isEmpty_iff.mp hempty]
    · rfl
  · rw [FinMap.get_insert]
    split <;> rfl

/-- The number of arrivals in the queues. -/
def queued (s : PathRace) : Nat := s.pending.sumVals fun _ q => q.length

/-- The counter, the queues and the age queue in step. -/
structure Tidy (s : PathRace) : Prop where
  /-- the counter is the number of arrivals in the queues -/
  live : s.live = s.queued
  /-- every arrival has an entry of its own in the age queue -/
  entry : ∀ sig atNs, (s.queue sig).countP (·.recvNs = atNs) ≤ s.order.count (sig, atNs)
  /-- no queue is empty or too long -/
  size : ∀ sig q, s.pending.get sig = some q → q ≠ [] ∧ q.length ≤ MAX_PER_SIGNATURE

theorem Tidy.new (windowNs : Nat) : Tidy (new windowNs) :=
  ⟨rfl, fun _ _ => Nat.le_refl _, nofun⟩

theorem Tidy.queue_le (h : Tidy s) (sig : Signature) : (s.queue sig).length ≤ MAX_PER_SIGNATURE := by
  unfold queue
  cases hq : s.pending.get sig with
  | none => exact Nat.zero_le _
  | some q => exact (h.size sig q hq).2

theorem queued_queue (s : PathRace) (sig : Signature) : (s.pending.get sig).elim 0 List.length = (s.queue sig).length := by
  unfold queue
  cases s.pending.get sig <;> rfl

/-- What is in a queue is counted. -/
theorem queue_le_queued (s : PathRace) (sig : Signature) : (s.queue sig).length ≤ s.queued := by
  have h := FinMap.sumVals_erase s.pending (fun _ q => q.length) sig
  rw [queued_queue] at h
  unfold queued
  omega

theorem queued_remove (hfind : (s.queue sig).find? p = some a) : (s.remove sig p).queued + 1 = s.queued := by
  obtain ⟨l, r, hq, hrest⟩ := find_split hfind
  have hlen : (s.queue sig).length = ((s.queue sig).eraseP p).length + 1 := by
    rw [hrest, hq, List.length_append, List.length_append, List.length_cons]
    omega
  unfold remove queued
  simp only
  split
  · rename_i hempty
    have h := FinMap.sumVals_erase s.pending (fun _ q => q.length) sig
    rw [queued_queue, hlen, List.isEmpty_iff.mp hempty] at h
    exact h
  · have h := FinMap.sumVals_insert s.pending (fun _ q => q.length) sig ((s.queue sig).eraseP p)
    rw [queued_queue] at h
    omega

/-! ## Each operation keeps them in step -/

/-- Taking an arrival out of its queue leaves its entry behind. -/
theorem Tidy.remove (h : Tidy s) (hfind : (s.queue sig).find? p = some a) : Tidy (s.remove sig p) := by
  refine ⟨?_, fun sig' atNs => ?_, fun sig' q hq => ?_⟩
  · have hqueued := queued_remove hfind
    show s.live - 1 = _
    rw [h.live]
    omega
  · refine Nat.le_trans ?_ (h.entry sig' atNs)
    rw [queue_remove]
    split
    · rename_i heq
      rw [heq]
      exact List.Sublist.countP_le List.eraseP_sublist
    · exact Nat.le_refl _
  · unfold PathRace.remove at hq
    simp only at hq
    split at hq
    · rw [FinMap.get_erase] at hq
      split at hq
      · cases hq
      · exact h.size sig' q hq
    · rename_i hne
      rw [FinMap.get_insert] at hq
      split at hq
      · cases hq
        refine ⟨fun hnil => hne (by rw [hnil]; rfl), ?_⟩
        exact Nat.le_trans List.length_eraseP_le (h.queue_le sig)
      · exact h.size sig' q hq

/-- What popping the front of the age queue leaves. -/
structure Popped (s s' : PathRace) (rest : List (Signature × Nat)) : Prop where
  tidy : Tidy s'
  order : s'.order = rest
  windowNs : s'.windowNs = s.windowNs

theorem Tidy.popFront (h : Tidy s) {rest : List (Signature × Nat)} (horder : s.order = (sig, atNs) :: rest) :
    Popped s (s.popFront sig atNs rest).1 rest := by
  have hcount : ∀ e, s.order.count e = rest.count e + if (sig, atNs) = e then 1 else 0 := by
    intro e
    rw [horder, List.count_cons]
    simp
  unfold PathRace.popFront dropArrival
  split
  · rename_i hnone
    refine ⟨⟨h.live, fun sig' atNs' => ?_, h.size⟩, rfl, rfl⟩
    have hentry := h.entry sig' atNs'
    rw [hcount] at hentry
    show (s.queue sig').countP _ ≤ rest.count (sig', atNs')
    split at hentry
    · rename_i heq
      cases heq
      have hzero : (s.queue sig).countP (·.recvNs = atNs) = 0 := by
        rw [List.countP_eq_zero]
        exact fun a ha => List.find?_eq_none.mp hnone a ha
      omega
    · exact hentry
  · rename_i a hsome
    have hremove := h.remove (p := fun a => a.recvNs = atNs) hsome
    refine ⟨⟨hremove.live, fun sig' atNs' => ?_, hremove.size⟩, rfl, rfl⟩
    have hentry := h.entry sig' atNs'
    rw [hcount] at hentry
    show ((s.remove sig fun a => a.recvNs = atNs).queue sig').countP _ ≤ rest.count (sig', atNs')
    rw [queue_remove]
    split
    · rename_i heq
      subst heq
      obtain ⟨l, r, hq, hrest⟩ := find_split (show (s.queue sig').find? (fun a => a.recvNs = atNs) = some a from hsome)
      have ha : a.recvNs = atNs := by simpa using List.find?_some hsome
      rw [hq, List.countP_append, List.countP_cons] at hentry
      rw [hrest, List.countP_append]
      by_cases hat : atNs = atNs'
      · subst hat
        simp only [ha, if_true, decide_true] at hentry
        omega
      · have hne : ¬ (sig', atNs) = (sig', atNs') := fun heq => hat (Prod.mk.injEq _ _ _ _ ▸ heq).2
        rw [if_neg hne] at hentry
        omega
    · rename_i hne
      have hne' : ¬ (sig, atNs) = (sig', atNs') := fun heq => hne (Prod.mk.injEq _ _ _ _ ▸ heq).1.symm
      rw [if_neg hne'] at hentry
      exact hentry

/-- Counting unmatched arrivals touches nothing else. -/
theorem recordUnmatched_frame (s : PathRace) (scope : ScopeKey) (path : Transport) :
    (s.recordUnmatched scope path).pending = s.pending ∧ (s.recordUnmatched scope path).order = s.order ∧
      (s.recordUnmatched scope path).live = s.live ∧ (s.recordUnmatched scope path).windowNs = s.windowNs := by
  unfold recordUnmatched
  split
  · exact ⟨rfl, rfl, rfl, rfl⟩
  · split <;> exact ⟨rfl, rfl, rfl, rfl⟩

theorem Tidy.frame {s' : PathRace} (h : Tidy s) (hpending : s'.pending = s.pending) (horder : s'.order = s.order)
    (hlive : s'.live = s.live) : Tidy s' := by
  obtain ⟨w, pending, order, live, unmatched⟩ := s'
  subst hpending horder hlive
  exact ⟨h.live, h.entry, h.size⟩

/-- What dropping the oldest entries leaves. -/
structure Aged (s s' : PathRace) : Prop where
  tidy : Tidy s'
  order : s'.order <:+ s.order
  windowNs : s'.windowNs = s.windowNs

theorem Aged.refl (h : Tidy s) : Aged s s := ⟨h, List.suffix_refl _, rfl⟩

theorem Aged.popped {s' s'' : PathRace} {rest : List (Signature × Nat)} (horder : s.order = (sig, atNs) :: rest)
    (hpop : Popped s s' rest) (h : Aged s' s'') : Aged s s'' := by
  refine ⟨h.tidy, ?_, h.windowNs.trans hpop.windowNs⟩
  rw [horder]
  exact (hpop.order ▸ h.order).trans (List.suffix_cons _ _)

/-- The eviction keeps the queues in step, and stops at an entry inside the window. -/
theorem Tidy.evictLoop (nowNs : Nat) : ∀ (order : List (Signature × Nat)) (s : PathRace) (dropped : FinMap Transport Nat),
    Tidy s → s.order = order →
    Aged s (evictLoop nowNs order s dropped).1 ∧
      ∀ e rest, (PathRace.evictLoop nowNs order s dropped).1.order = e :: rest → nowNs - e.2 ≤ s.windowNs
  | [], s, _, h, horder => ⟨.refl h, fun e rest heq => by
      unfold PathRace.evictLoop at heq
      rw [horder] at heq
      cases heq⟩
  | (sig, atNs) :: order, s, dropped, h, horder => by
    have hpop := h.popFront horder
    unfold PathRace.evictLoop
    split
    · rename_i hwindow
      refine ⟨.refl h, fun e rest heq => ?_⟩
      simp only at heq
      rw [horder] at heq
      cases heq
      exact hwindow
    · split
      · rename_i s' heq
        rw [heq] at hpop
        obtain ⟨haged, hstop⟩ := Tidy.evictLoop nowNs order s' dropped hpop.tidy hpop.order
        exact ⟨.popped horder hpop haged, hpop.windowNs ▸ hstop⟩
      · rename_i s' path heq
        rw [heq] at hpop
        obtain ⟨hpending, horder', hlive, hwindow⟩ := recordUnmatched_frame s' sig.scope path
        have hrecord : Popped s (s'.recordUnmatched sig.scope path) order :=
          ⟨hpop.tidy.frame hpending horder' hlive, horder'.trans hpop.order, hwindow.trans hpop.windowNs⟩
        obtain ⟨haged, hstop⟩ := Tidy.evictLoop nowNs order _
          (dropped.insert path ((dropped.get path).getD 0 + 1)) hrecord.tidy hrecord.order
        exact ⟨.popped horder hrecord haged, hrecord.windowNs ▸ hstop⟩

theorem Tidy.evictStale (h : Tidy s) (nowNs : Nat) :
    Aged s (s.evictStale nowNs).1 ∧
      ∀ e rest, (s.evictStale nowNs).1.order = e :: rest → nowNs - e.2 ≤ s.windowNs :=
  Tidy.evictLoop nowNs s.order s ∅ h rfl

/-- Making room keeps the queues in step. -/
theorem Tidy.makeRoom : ∀ (order : List (Signature × Nat)) (s : PathRace), Tidy s → s.order = order →
    Aged s (makeRoom order s) ∧ (PathRace.makeRoom order s).order.length < MAX_PENDING
  | [], s, h, horder => by
    refine ⟨.refl h, ?_⟩
    show s.order.length < _
    rw [horder]
    exact Nat.two_pow_pos 16
  | (sig, atNs) :: order, s, h, horder => by
    unfold PathRace.makeRoom
    split
    · have hpop := h.popFront horder
      obtain ⟨haged, hlen⟩ := Tidy.makeRoom order _ hpop.tidy hpop.order
      exact ⟨.popped horder hpop haged, hlen⟩
    · rename_i hroom
      refine ⟨.refl h, ?_⟩
      rw [horder, List.length_cons]
      omega

/-- What queueing an arrival leaves. -/
structure Pushed (s s' : PathRace) (e : Signature × Nat) : Prop where
  tidy : Tidy s'
  order : ∃ kept, kept <:+ s.order ∧ s'.order = kept ++ [e]
  short : s'.order.length ≤ MAX_PENDING
  windowNs : s'.windowNs = s.windowNs

theorem Tidy.push (h : Tidy s) (sig : Signature) (arrival : Arrival) :
    Pushed s (s.push sig arrival) (sig, arrival.recvNs) := by
  obtain ⟨⟨hroom, hsuffix, hwindow⟩, hshort⟩ := Tidy.makeRoom s.order s h rfl
  unfold PathRace.push
  generalize PathRace.makeRoom s.order s = r at hroom hsuffix hwindow hshort
  simp only
  -- the queue the arrival joins, one shorter when it was full
  obtain ⟨q, live, hq, hsub, hlen, hlive⟩ : ∃ q live,
      (if (r.queue sig).length ≥ MAX_PER_SIGNATURE then ((r.queue sig).tail, r.live - 1) else (r.queue sig, r.live)) =
        (q, live) ∧ q.Sublist (r.queue sig) ∧ q.length < MAX_PER_SIGNATURE ∧
        live + (r.queue sig).length = r.queued + q.length := by
    have hle := hroom.queue_le sig
    have hcounted := queue_le_queued r sig
    have hlive := hroom.live
    split
    · rename_i hfull
      refine ⟨_, _, rfl, List.tail_sublist _, ?_, ?_⟩
      · rw [List.length_tail]
        exact Nat.lt_of_lt_of_le (Nat.sub_lt (Nat.lt_of_lt_of_le (by decide) hfull) Nat.one_pos) hle
      · have hpos : 0 < MAX_PER_SIGNATURE := by decide
        rw [List.length_tail]
        omega
    · rename_i hfull
      exact ⟨_, _, rfl, List.Sublist.refl _, Nat.not_le.mp hfull, by omega⟩
  rw [hq]
  refine ⟨⟨?_, fun sig' atNs => ?_, fun sig' q' hq' => ?_⟩, ⟨r.order, hsuffix, rfl⟩, ?_, hwindow⟩
  · have hinsert := FinMap.sumVals_insert r.pending (fun _ q => q.length) sig (q ++ [arrival])
    rw [queued_queue, List.length_append, List.length_singleton] at hinsert
    show live + 1 = (r.pending.insert sig (q ++ [arrival])).sumVals fun _ q => q.length
    unfold queued at hlive
    omega
  · have hentry := hroom.entry sig' atNs
    show List.countP _ (((r.pending.insert sig (q ++ [arrival])).get sig').getD []) ≤
      (r.order ++ [(sig, arrival.recvNs)]).count (sig', atNs)
    rw [FinMap.get_insert, List.count_append, List.count_singleton]
    split
    · rename_i heq
      subst heq
      have hle : q.countP (·.recvNs = atNs) ≤ (r.queue sig').countP (·.recvNs = atNs) := hsub.countP_le
      rw [Option.getD_some, List.countP_append, List.countP_singleton]
      by_cases hat : arrival.recvNs = atNs
      · simp only [hat, decide_true, beq_self_eq_true, if_true]
        omega
      · simp only [hat, decide_false, Bool.false_eq_true, if_false]
        omega
    · exact Nat.le_trans hentry (Nat.le_add_right _ _)
  · rw [FinMap.get_insert] at hq'
    split at hq'
    · cases hq'
      refine ⟨by simp, ?_⟩
      rw [List.length_append, List.length_singleton]
      exact hlen
    · exact hroom.size sig' q' hq'
  · show (r.order ++ [(sig, arrival.recvNs)]).length ≤ MAX_PENDING
    rw [List.length_append, List.length_singleton]
    exact hshort

end PathRace

/-! ## Runs -/

/-- What every call keeps. -/
structure Kept (s : PathRace) : Prop where
  tidy : s.Tidy
  short : s.order.length ≤ MAX_PENDING

variable {s : PathRace} {c : Call}

theorem Kept.aged {s' : PathRace} (h : Kept s) (haged : PathRace.Aged s s') : Kept s' :=
  ⟨haged.tidy, Nat.le_trans haged.order.length_le h.short⟩

theorem Kept.onTrade (h : Kept s) (d : Delivery) : Kept (s.onTrade d).1 := by
  have haged := (h.tidy.evictStale d.recvNs).1
  have hkept := h.aged haged
  unfold PathRace.onTrade
  generalize (s.evictStale d.recvNs).1 = r at hkept
  simp only
  split
  · rename_i peer hpeer
    exact ⟨hkept.tidy.remove hpeer, hkept.short⟩
  · have hpush := hkept.tidy.push d.signature d.arrival
    exact ⟨hpush.tidy, hpush.short⟩

theorem Kept.step (h : Kept s) : Kept (step s c).1 := by
  cases c with
  | onTrade d => exact h.onTrade d
  | evictStale nowNs => exact h.aged (h.tidy.evictStale nowNs).1
  | drainUnmatched => exact ⟨h.tidy.frame rfl rfl rfl, h.short⟩

theorem kept_run (windowNs : Nat) (calls : List Call) : Kept (machine.exec (.new windowNs) calls) :=
  Machine.invariant_rule (P := Kept) (fun _ _ h => h.step) calls _ ⟨.new windowNs, Nat.zero_le _⟩

/-- The receive time of a call. -/
def Call.recvNs : Call → Option Nat
  | .onTrade d => some d.recvNs
  | _ => none

/-- No entry is younger than a call to come, and the entries stand in order of age. -/
structure Sorted (s : PathRace) (windowNs : Nat) (calls : List Call) : Prop where
  order : s.order.Pairwise fun e e' => e.2 ≤ e'.2
  past : ∀ e ∈ s.order, ∀ t ∈ calls.filterMap Call.recvNs, e.2 ≤ t
  windowNs : s.windowNs = windowNs

theorem Sorted.aged {s' : PathRace} {windowNs : Nat} {calls : List Call} (h : Sorted s windowNs calls)
    (haged : PathRace.Aged s s') : Sorted s' windowNs calls :=
  ⟨h.order.sublist haged.order.sublist, fun e he => h.past e (haged.order.subset he), haged.windowNs.trans h.windowNs⟩

theorem Sorted.tail {windowNs : Nat} {calls : List Call} (h : Sorted s windowNs (c :: calls)) : Sorted s windowNs calls :=
  ⟨h.order, fun e he t ht => h.past e he t (((List.sublist_cons_self c calls).filterMap _).subset ht), h.windowNs⟩

/-- After the eviction of a trade, every entry is inside the window. -/
theorem Sorted.inside {windowNs nowNs : Nat} {calls : List Call} (h : Sorted s windowNs calls) (htidy : s.Tidy) :
    ∀ e ∈ (s.evictStale nowNs).1.order, nowNs - e.2 ≤ windowNs := by
  obtain ⟨haged, hstop⟩ := htidy.evictStale nowNs
  have horder := (h.aged haged).order
  intro e he
  cases heq : (s.evictStale nowNs).1.order with
  | nil => rw [heq] at he; cases he
  | cons front rest =>
    have hfront := hstop front rest heq
    rw [heq] at he horder
    rw [h.windowNs] at hfront
    rcases List.mem_cons.mp he with rfl | hrest
    · exact hfront
    · have := (List.pairwise_cons.mp horder).1 e hrest
      omega

/-- **One trade** of a clock that does not go back. -/
theorem Sorted.onTrade {windowNs : Nat} {calls : List Call} {d : Delivery} (h : Sorted s windowNs (.onTrade d :: calls))
    (hkept : Kept s) (hnext : ∀ t ∈ calls.filterMap Call.recvNs, d.recvNs ≤ t) :
    Sorted (s.onTrade d).1 windowNs calls ∧ ∀ m, (s.onTrade d).2 = some m → m.deltaNs ≤ windowNs := by
  have haged := (hkept.tidy.evictStale d.recvNs).1
  have hinside : ∀ e ∈ (s.evictStale d.recvNs).1.order, d.recvNs - e.2 ≤ windowNs := h.inside hkept.tidy
  have hsorted := h.aged haged
  unfold PathRace.onTrade
  generalize (s.evictStale d.recvNs).1 = r at hinside hsorted haged
  simp only
  split
  · rename_i peer hpeer
    refine ⟨⟨hsorted.tail.order, hsorted.tail.past, hsorted.windowNs⟩, fun m hm => ?_⟩
    cases hm
    -- the peer's own entry is still in the age queue
    have hmem : (d.signature, peer.recvNs) ∈ r.order := by
      have hpos : 0 < (r.queue d.signature).countP (·.recvNs = peer.recvNs) :=
        List.countP_pos_iff.mpr ⟨peer, List.mem_of_find?_eq_some hpeer, by simp⟩
      exact List.count_pos_iff.mp (Nat.lt_of_lt_of_le hpos (haged.tidy.entry _ _))
    exact hinside _ hmem
  · obtain ⟨-, ⟨kept, hsuffix, horder⟩, -, hwindow⟩ := haged.tidy.push d.signature d.arrival
    refine ⟨⟨?_, ?_, hwindow.trans hsorted.windowNs⟩, nofun⟩
    · rw [horder, List.pairwise_append]
      refine ⟨hsorted.order.sublist hsuffix.sublist, List.pairwise_singleton _ _, fun e he e' he' => ?_⟩
      rw [List.mem_singleton.mp he']
      exact hsorted.past e (hsuffix.subset he) d.recvNs (List.mem_cons_self)
    · intro e he t ht
      rw [horder, List.mem_append, List.mem_singleton] at he
      rcases he with he | rfl
      · exact hsorted.tail.past e (hsuffix.subset he) t ht
      · exact hnext t ht

theorem sorted_run (windowNs : Nat) : ∀ (calls : List Call) (s : PathRace), Kept s → Sorted s windowNs calls →
    (calls.filterMap Call.recvNs).Pairwise (· ≤ ·) →
    ∀ c m, (c, Reply.matched (some m)) ∈ machine.trace s calls → m.deltaNs ≤ windowNs
  | [], _, _, _, _, c, m, hmem => by cases hmem
  | call :: calls, s, hkept, hsorted, htimes, c, m, hmem => by
    have htail : (calls.filterMap Call.recvNs).Pairwise (· ≤ ·) :=
      htimes.sublist ((List.sublist_cons_self call calls).filterMap _)
    have hstep := hkept.step (c := call)
    rw [Machine.trace_cons, List.mem_cons] at hmem
    cases call with
    | onTrade d =>
      have hnext : ∀ t ∈ calls.filterMap Call.recvNs, d.recvNs ≤ t := (List.pairwise_cons.mp htimes).1
      obtain ⟨hsorted', hdelta⟩ := hsorted.onTrade hkept hnext
      rcases hmem with heq | hmem
      · have hm : (s.onTrade d).2 = some m := by
          have := congrArg Prod.snd heq
          exact (Reply.matched.inj this).symm
        exact hdelta m hm
      · exact sorted_run windowNs calls _ hstep hsorted' htail c m hmem
    | evictStale nowNs =>
      rcases hmem with heq | hmem
      · cases heq
      · have haged := (hkept.tidy.evictStale nowNs).1
        exact sorted_run windowNs calls _ hstep (hsorted.tail.aged haged) htail c m hmem
    | drainUnmatched =>
      rcases hmem with heq | hmem
      · cases heq
      · have hsorted' : Sorted (step s .drainUnmatched).1 windowNs calls :=
          ⟨hsorted.tail.order, hsorted.tail.past, hsorted.windowNs⟩
        exact sorted_run windowNs calls _ hstep hsorted' htail c m hmem

/-- **The bookkeeping of the matcher.**  After any calls the counter is the number of queued arrivals, each of them has an
entry of its own in the age queue, no queue is empty or past its cap, and the age queue is never past its own; and as
long as the receive times do not go back, no match spans more than the window. -/
theorem matcher_bookkeeping (windowNs : Nat) (calls : List Call) :
    let s := machine.exec (.new windowNs) calls
    s.live = (s.pending.sumVals fun _ q => q.length) ∧
      (∀ sig atNs, (s.queue sig).countP (·.recvNs = atNs) ≤ s.order.count (sig, atNs)) ∧
      (∀ sig q, s.pending.get sig = some q → q ≠ [] ∧ q.length ≤ MAX_PER_SIGNATURE) ∧
      s.order.length ≤ MAX_PENDING ∧
      ((calls.filterMap Call.recvNs).Pairwise (· ≤ ·) →
        ∀ c m, (c, Reply.matched (some m)) ∈ machine.trace (.new windowNs) calls → m.deltaNs ≤ windowNs) := by
  intro s
  have hkept : Kept s := kept_run windowNs calls
  refine ⟨hkept.tidy.live, hkept.tidy.entry, hkept.tidy.size, hkept.short, fun htimes => ?_⟩
  exact sorted_run windowNs calls _ ⟨.new windowNs, Nat.zero_le _⟩ ⟨List.Pairwise.nil, nofun, rfl⟩ htimes

end EdgeConnect.Race
