import EdgeConnect.Ingest.ArbiterSlot
import EdgeConnect.Sinks.WsLag

/-!
# The slots a client is told

The arbiter's `monotonic_slot` keeps what it broadcasts for a market from going back.  A replay is
materialized straight from the replay entry, past that filter.

* `Relay`, `Move`, `relayMachine` — the arbiter's gate in front of the sink;
* `Level` — what is kept of one client: the slots it was told and those it is still to be told climb, and
  none is past the slot the market published last;
* `Fit` — an entry whose bootstrap takes nothing back;
* `slots_never_go_back` — in every run whose bootstraps are all fit, the slots a client is told of a market
  never go back; `handover_replay_goes_back` — a replay after a handover takes one back.
-/

set_option autoImplicit false

namespace EdgeConnect.Ws

open Arbiter Authority

/-! ## The arbiter in front of the sink -/

/-- A step of the sink that is no batch of its own. -/
abbrev SinkAct := { i : Act // ∀ b, i ≠ .publish b }

structure Relay where
  arbiter : Arbiter
  sink : Sink

inductive Move where
  | call (c : Call)
  | act (i : SinkAct)

namespace Relay

/-- What the arbiter broadcasts reaches the backbone, and its replay map is the sink's. -/
def broadcast (cap : Capacity) (s : Sink) (out : List NormalizedBook) : Sink :=
  out.foldl (fun s b => s.send cap (.book b)) s

def step (cap : Capacity) (cfg : WsConfig) (r : Relay) : Move → Relay × List Sent
  | .call c =>
    let (a, out) := Arbiter.step r.arbiter c
    (⟨a, broadcast cap { r.sink with books := a.bookReplay.getD ∅ } out⟩, [])
  | .act i =>
    let (s, out) := r.sink.step cap cfg i.1
    (⟨r.arbiter, s⟩, out)

def start (a : Arbiter) : Relay := ⟨a, { Sink.start with books := a.bookReplay.getD ∅ }⟩

/-- The slot a market published last. -/
def slot (r : Relay) (key : BookKey) : Option Nat := (r.arbiter.view key).slot

end Relay

def relayMachine (cap : Capacity) (cfg : WsConfig) : Machine Relay Move (List Sent) := ⟨Relay.step cap cfg⟩

/-! ## Marks -/

/-- What a frame shows of its batch: the stamp and the slot. -/
structure Mark where
  stamp : Nat
  slot : Option Nat

def markOf (f : PreparedFrame) : Mark := ⟨f.recvTsNs, f.payload.batch.bind (·.batchId)⟩

def marks (key : BookKey) (q : List PreparedFrame) : List Mark := (framesOf key q).map markOf

/-- The slots some frames name. -/
def slots (q : List Mark) : List Nat := q.filterMap (·.slot)

/-- The slots some batches name. -/
def named (bs : List NormalizedBook) : List Nat := bs.filterMap (·.batchId)

/-- What the watermark leaves of the frames still to be read. -/
def Seat.left (s : Seat) (q : List Mark) : List Mark :=
  match s.watermark with
  | none => q
  | some (w, _) => q.dropWhile fun m => m.stamp < w

variable {cap : Capacity} {cfg : WsConfig} {key : BookKey} {q q' : List Mark} {m : Mark} {seat : Seat}
  {w w' : Option Nat} {told : List Nat}

theorem named_append (bs bs' : List NormalizedBook) : named (bs ++ bs') = named bs ++ named bs' :=
  List.filterMap_append

theorem slots_append (q q' : List Mark) : slots (q ++ q') = slots q ++ slots q' := List.filterMap_append

theorem slots_cons (m : Mark) (q : List Mark) : slots (m :: q) = m.slot.toList ++ slots q := by
  unfold slots
  rw [List.filterMap_cons]
  cases m.slot with
  | none => rfl
  | some x => rfl

theorem slots_sublist (h : q'.Sublist q) : (slots q').Sublist (slots q) := h.filterMap _

/-- Frames that are lost take nothing else out of a reader's sight than themselves. -/
theorem dropWhile_sublist (p : Mark → Bool) (h : q'.Sublist q) : (q'.dropWhile p).Sublist (q.dropWhile p) := by
  induction h with
  | slnil => exact .slnil
  | @cons q' q m hq ih =>
    rw [List.dropWhile_cons]
    split
    · exact ih
    · exact ((List.dropWhile_sublist p).trans hq).cons m
  | @cons_cons q' q m hq ih =>
    rw [List.dropWhile_cons, List.dropWhile_cons]
    split
    · exact ih
    · exact hq.cons_cons m

theorem left_sublist (seat : Seat) (h : q'.Sublist q) : (seat.left q').Sublist (seat.left q) := by
  unfold Seat.left
  split
  · exact h
  · exact dropWhile_sublist _ h

theorem left_self (seat : Seat) (q : List Mark) : (seat.left q).Sublist q := by
  unfold Seat.left
  split
  · exact List.Sublist.refl q
  · exact List.dropWhile_sublist _

theorem left_snoc (seat : Seat) (q : List Mark) (m : Mark) : (seat.left (q ++ [m])).Sublist (seat.left q ++ [m]) := by
  unfold Seat.left
  split
  · exact List.Sublist.refl _
  · rw [List.dropWhile_append]
    split
    · exact (List.dropWhile_sublist _).trans (List.sublist_append_right _ _)
    · exact List.Sublist.refl _

/-! ## One client, one market -/

/-- A slot that is no further than the one published last. -/
def Behind (x : Nat) (w : Option Nat) : Prop := ∃ p, w = some p ∧ x ≤ p

/-- What is kept of a client that was told the slots `told` of a market. -/
structure Level (told : List Nat) (w : Option Nat) (q : List Mark) (seat : Seat) : Prop where
  queued : (slots q).Pairwise (· ≤ ·)
  due : (told ++ slots (seat.left q)).Pairwise (· ≤ ·)
  behind : ∀ x ∈ told ++ slots q, Behind x w

theorem Level.told_sorted (h : Level told w q seat) : told.Pairwise (· ≤ ·) := (List.pairwise_append.mp h.due).1

/-- Frames are lost. -/
theorem Level.lose (h : Level told w q seat) (hq : q'.Sublist q) : Level told w q' seat := by
  refine ⟨h.queued.sublist (slots_sublist hq), h.due.sublist ?_, fun x hx => h.behind x ?_⟩
  · exact (List.Sublist.refl told).append (slots_sublist (left_sublist seat hq))
  · exact ((List.Sublist.refl told).append (slots_sublist hq)).subset hx

/-- Nothing but the watermark matters. -/
theorem Level.reseat {seat' : Seat} (h : Level told w q seat) (hw : seat'.watermark = seat.watermark) :
    Level told w q seat' := by
  refine ⟨h.queued, ?_, h.behind⟩
  have hleft : seat'.left q = seat.left q := by
    unfold Seat.left
    rw [hw]
  rw [hleft]
  exact h.due

theorem behind_climb {x s : Nat} (hx : Behind x w) (hs : ∀ p, w = some p → p ≤ s) : x ≤ s := by
  obtain ⟨p, hp, hle⟩ := hx
  exact hle.trans (hs p hp)

/-- A batch is broadcast whose slot does not go back. -/
theorem Level.publish (h : Level told w q seat) (m : Mark) (hclimb : Climbs w [m.slot] w') :
    Level told w' (q ++ [m]) seat := by
  cases hm : m.slot with
  | none =>
    rw [hm] at hclimb
    obtain rfl : w' = w := hclimb
    have hsame : slots (q ++ [m]) = slots q := by
      rw [slots_append, slots_cons, hm]
      exact List.append_nil _
    have hleft : (slots (seat.left (q ++ [m]))).Sublist (slots (seat.left q)) := by
      refine (slots_sublist (left_snoc seat q m)).trans ?_
      rw [slots_append, slots_cons, hm]
      rw [Option.toList_none, List.nil_append]
      exact (List.append_nil (slots (seat.left q))).symm ▸ List.Sublist.refl _
    refine ⟨hsame ▸ h.queued, h.due.sublist ((List.Sublist.refl told).append hleft), ?_⟩
    rw [hsame]
    exact h.behind
  | some s =>
    rw [hm] at hclimb
    obtain ⟨hs, rfl⟩ : (∀ p, w = some p → p ≤ s) ∧ w' = some s := hclimb
    have hslots : ∀ q' : List Mark, slots (q' ++ [m]) = slots q' ++ [s] := by
      intro q'
      rw [slots_append, slots_cons, hm]
      rfl
    have hle : ∀ x ∈ told ++ slots q, x ≤ s := fun x hx => behind_climb (h.behind x hx) hs
    refine ⟨?_, ?_, fun x hx => ⟨s, rfl, ?_⟩⟩
    · rw [hslots, List.pairwise_append]
      refine ⟨h.queued, List.pairwise_singleton _ _, fun x hx y hy => ?_⟩
      rw [List.mem_singleton.mp hy]
      exact hle x (List.mem_append_right _ hx)
    · refine List.Pairwise.sublist ((List.Sublist.refl told).append (slots_sublist (left_snoc seat q m))) ?_
      rw [hslots, ← List.append_assoc, List.pairwise_append]
      refine ⟨h.due, List.pairwise_singleton _ _, fun x hx y hy => ?_⟩
      rw [List.mem_singleton.mp hy]
      exact hle x (((List.Sublist.refl told).append (slots_sublist (left_self seat q))).subset hx)
    · rw [hslots, ← List.append_assoc, List.mem_append] at hx
      rcases hx with hx | hx
      · exact hle x hx
      · rw [List.mem_singleton.mp hx]

/-! ## Bootstraps that take nothing back -/

/-- No frame names another slot than the one published last. -/
def Settled (w : Option Nat) (q : List Mark) : Prop := ∀ x ∈ slots q, w = some x

/-- An entry whose bootstrap takes nothing back: it names no slot and brings no frame back that the client
was spared, or it names the slot published last, and so do the frames its watermark leaves. -/
def Fit (w : Option Nat) (q : List Mark) (seat : Seat) (r : BookAccumulator) : Prop :=
  (r.batchId = none ∧ ∀ old since, seat.watermark = some (old, since) → old ≤ r.wireTsNs) ∨
    (r.batchId = w ∧ Settled w (q.dropWhile fun m => m.stamp < r.wireTsNs))

theorem dropWhile_zero (q : List Mark) : q.dropWhile (fun m => decide (m.stamp < 0)) = q := by
  cases q with
  | nil => rfl
  | cons m q => exact List.dropWhile_cons_of_neg (by simp)

theorem left_bootstrapped (seat : Seat) (r : BookAccumulator) (now : Nat) (q : List Mark) :
    ((seat.bootstrapped r now).left q).Sublist (q.dropWhile fun m => m.stamp < r.wireTsNs) := by
  unfold Seat.bootstrapped
  by_cases hr : r.wireTsNs = 0
  · rw [hr, dropWhile_zero]
    exact left_self _ q
  · unfold Seat.left
    simp only [if_pos hr]
    exact List.Sublist.refl _

/-- A later watermark leaves less. -/
theorem dropWhile_later {v v' : Nat} (hv : v ≤ v') (q : List Mark) :
    (q.dropWhile fun m => m.stamp < v').Sublist (q.dropWhile fun m => m.stamp < v) := by
  induction q with
  | nil => exact .slnil
  | cons m q ih =>
    rw [List.dropWhile_cons (p := fun m : Mark => decide (m.stamp < v))]
    split
    · rename_i hm
      have hm' : decide (m.stamp < v') = true := decide_eq_true ((of_decide_eq_true hm).trans_le hv)
      rw [List.dropWhile_cons (p := fun m : Mark => decide (m.stamp < v')), if_pos hm']
      exact ih
    · exact List.dropWhile_sublist _

theorem left_bootstrapped_later {r : BookAccumulator}
    (hr : ∀ old since, seat.watermark = some (old, since) → old ≤ r.wireTsNs) (now : Nat) (q : List Mark) :
    ((seat.bootstrapped r now).left q).Sublist (seat.left q) := by
  by_cases hzero : r.wireTsNs = 0
  · have hseat : (seat.bootstrapped r now).watermark = seat.watermark := by
      unfold Seat.bootstrapped
      rw [if_neg (not_not.mpr hzero)]
    unfold Seat.left
    rw [hseat]
  · refine (left_bootstrapped seat r now q).trans ?_
    unfold Seat.left
    split
    · exact List.dropWhile_sublist _
    · rename_i old since hold
      exact dropWhile_later (hr old since hold) q

theorem Settled.sublist (h : Settled w q) (hq : q'.Sublist q) : Settled w q' :=
  fun x hx => h x ((slots_sublist hq).subset hx)

/-- What a client was told, followed by nothing but the slot published last. -/
theorem pairwise_settled {rest : List Nat} (htold : told.Pairwise (· ≤ ·)) (hbehind : ∀ x ∈ told, Behind x w)
    (hrest : ∀ x ∈ rest, w = some x) : (told ++ rest).Pairwise (· ≤ ·) := by
  have hle : ∀ x y, Behind x w → w = some y → x ≤ y := by
    rintro x y ⟨p, hp, hxp⟩ hy
    rw [hp] at hy
    cases hy
    exact hxp
  rw [List.pairwise_append]
  refine ⟨htold, ?_, fun x hx y hy => hle x y (hbehind x hx) (hrest y hy)⟩
  refine List.pairwise_of_forall_mem_list fun x hx y hy => ?_
  exact hle x y ⟨x, hrest x hx, le_rfl⟩ (hrest y hy)

/-- **A fit bootstrap takes nothing back.** -/
theorem Level.bootstrapped (h : Level told w q seat) {r : BookAccumulator} (hr : Fit w q seat r) (now : Nat) :
    Level (told ++ r.batchId.toList) w q (seat.bootstrapped r now) := by
  rcases hr with ⟨hnone, hlater⟩ | ⟨hslot, hsettled⟩
  · rw [hnone, Option.toList_none, List.append_nil]
    refine ⟨h.queued, h.due.sublist ?_, h.behind⟩
    exact (List.Sublist.refl told).append (slots_sublist (left_bootstrapped_later hlater now q))
  · have hrest : ∀ x ∈ r.batchId.toList ++ slots ((seat.bootstrapped r now).left q), w = some x := by
      intro x hx
      rcases List.mem_append.mp hx with hx | hx
      · rw [← hslot]
        exact Option.mem_toList.mp hx
      · exact hsettled.sublist (left_bootstrapped seat r now q) x hx
    have hbehind : ∀ x ∈ told, Behind x w := fun x hx => h.behind x (List.mem_append_left _ hx)
    refine ⟨h.queued, ?_, fun x hx => ?_⟩
    · rw [List.append_assoc]
      exact pairwise_settled h.told_sorted hbehind hrest
    · rw [List.append_assoc, List.mem_append, List.mem_append] at hx
      rcases hx with hx | hx | hx
      · exact hbehind x hx
      · exact ⟨x, hrest x (List.mem_append_left _ hx), le_rfl⟩
      · exact h.behind x (List.mem_append_right _ hx)

/-! ## Every operation of the client -/

section Seat

variable {entry : Option BookAccumulator} {subs : List SubFilter} {deadline now wall : Nat}

theorem named_bootstrap (r : BookAccumulator) (key : BookKey) (wall : Nat) :
    named [r.toBookScoped key (bookScope r) wall] = r.batchId.toList := by
  have hid : (r.toBookScoped key (bookScope r) wall).batchId = r.batchId := by
    cases bookScope r <;> rfl
  unfold named
  rw [List.filterMap_cons, hid]
  cases r.batchId <;> rfl

theorem Level.replayed (h : Level told w q seat)
    (hfit : ∀ r, entry = some r → wanted subs key r = true → r.baselined = true → r.pending = [] →
      Fit w q seat r) :
    Level (told ++ named (seat.replayed entry subs key now wall).2) w q
      (seat.replayed entry subs key now wall).1 := by
  have hsame : Level (told ++ named []) w q seat := by
    rw [show named [] = [] from rfl, List.append_nil]
    exact h
  unfold Seat.replayed
  cases entry with
  | none => exact hsame
  | some r =>
    simp only
    split
    · exact hsame
    · rename_i hwanted
      split
      · exact hsame.reseat rfl
      · rename_i hwhole
        obtain ⟨hbase, hpend⟩ := whole_of_not hwhole
        simp only [named_bootstrap]
        exact h.bootstrapped (hfit r rfl (by simpa using hwanted) hbase hpend) now

/-- What a release asks of the entry it may write. -/
def Seat.Releases (s : Seat) (r : BookAccumulator) (subs : List SubFilter) (key : BookKey) (deadline now : Nat) :
    Prop :=
  ∃ since, s.awaiting = some since ∧ wanted subs key r = true ∧ r.baselined = true ∧
    (r.pendingEmpty = true ∨ now - since ≥ deadline)

/-- What a release does to a seat: it leaves the watermark, or writes the bootstrap. -/
theorem released_cases (seat : Seat) (entry : Option BookAccumulator) (subs : List SubFilter) (key : BookKey)
    (deadline now wall : Nat) :
    ((seat.released entry subs key deadline now wall).1.watermark = seat.watermark ∧
        (seat.released entry subs key deadline now wall).2.1 = []) ∨
      ∃ r, entry = some r ∧ seat.Releases r subs key deadline now ∧
        seat.released entry subs key deadline now wall =
          (seat.bootstrapped r now, [r.toBookScoped key (bookScope r) wall], false) := by
  unfold Seat.released
  split
  · exact Or.inl ⟨rfl, rfl⟩
  · rename_i since hsince
    split
    · exact Or.inl ⟨rfl, rfl⟩
    · rename_i r
      split
      · exact Or.inl ⟨rfl, rfl⟩
      · rename_i hwanted
        split
        · exact Or.inl ⟨rfl, rfl⟩
        · rename_i hbase
          split
          · rename_i hready
            refine Or.inr ⟨r, rfl, ⟨since, hsince, by simpa using hwanted, by simpa using hbase, ?_⟩, rfl⟩
            rw [Bool.or_eq_true, decide_eq_true_eq] at hready
            exact hready
          · exact Or.inl ⟨rfl, rfl⟩

theorem Level.released (h : Level told w q seat)
    (hfit : ∀ r, entry = some r → seat.Releases r subs key deadline now → Fit w q seat r) :
    Level (told ++ named (seat.released entry subs key deadline now wall).2.1) w q
      (seat.released entry subs key deadline now wall).1 := by
  rcases released_cases seat entry subs key deadline now wall with ⟨hmark, hout⟩ | ⟨r, hr, hready, heq⟩
  · rw [hout, show named [] = [] from rfl, List.append_nil]
    exact h.reseat hmark
  · rw [heq, named_bootstrap]
    exact h.bootstrapped (hfit r hr hready) now

/-- A frame is spared or written; the watermark of one that is past its deadline does not hold it back. -/
theorem Level.admitted {f : PreparedFrame} (h : Level told w (markOf f :: q) seat)
    (hlate : ∀ old since, seat.watermark = some (old, since) → f.recvTsNs < old → deadline ≤ now - since →
      Settled w (markOf f :: q)) :
    Level (told ++ if (seat.admitted f deadline now).2 then (markOf f).slot.toList else []) w q
      (seat.admitted f deadline now).1 := by
  -- the frame is written, and nothing holds back those behind it
  have hwritten : ∀ seat' : Seat, seat'.watermark = none →
      (told ++ slots (markOf f :: q)).Pairwise (· ≤ ·) → Level (told ++ (markOf f).slot.toList) w q seat' := by
    intro seat' hmark hdue
    have hleft : seat'.left q = q := by
      unfold Seat.left
      rw [hmark]
    refine ⟨h.queued.sublist (slots_sublist (List.sublist_cons_self _ _)), ?_, fun x hx => h.behind x ?_⟩
    · rw [hleft, List.append_assoc, ← slots_cons]
      exact hdue
    · rw [slots_cons, ← List.append_assoc]
      exact hx
  unfold Seat.admitted
  cases hmark : seat.watermark with
  | none =>
    refine hwritten seat hmark ?_
    have hdue := h.due
    unfold Seat.left at hdue
    rw [hmark] at hdue
    exact hdue
  | some v =>
    obtain ⟨old, since⟩ := v
    simp only
    split
    · rename_i hspared
      simp only [Bool.false_eq_true, if_false, List.append_nil]
      exact h.lose (List.sublist_cons_self _ _)
    · rename_i hkept
      refine hwritten _ rfl ?_
      by_cases hold : f.recvTsNs < old
      · have hdeadline : deadline ≤ now - since := by
          by_contra hlt
          exact hkept ⟨hold, Nat.lt_of_not_le hlt⟩
        exact pairwise_settled h.told_sorted (fun x hx => h.behind x (List.mem_append_left _ hx))
          (hlate old since hmark hold hdeadline)
      · have hdue := h.due
        unfold Seat.left at hdue
        rw [hmark] at hdue
        simp only at hdue
        have hstamp : ¬ decide ((markOf f).stamp < old) = true := fun hlt => hold (of_decide_eq_true hlt)
        rw [List.dropWhile_cons, if_neg hstamp] at hdue
        exact hdue

/-- **A frame of the market is read.** -/
theorem Level.forwarded {f : PreparedFrame} (h : Level told w (markOf f :: q) seat) (hdeadline : 0 < deadline)
    (hfit : ∀ r, entry = some r → seat.Releases r subs key deadline now → Fit w (markOf f :: q) seat r)
    (hlate : ∀ old since, seat.watermark = some (old, since) → f.recvTsNs < old → deadline ≤ now - since →
      Settled w (markOf f :: q)) :
    Level (told ++ named (seat.forwarded entry subs key deadline now wall f).2) w q
      (seat.forwarded entry subs key deadline now wall f).1 := by
  have hreleased : Level (told ++ named (seat.released entry subs key deadline now wall).2.1) w (markOf f :: q)
      (seat.released entry subs key deadline now wall).1 := h.released hfit
  have hlate' : ∀ old since, (seat.released entry subs key deadline now wall).1.watermark = some (old, since) →
      f.recvTsNs < old → deadline ≤ now - since → Settled w (markOf f :: q) := by
    rcases released_cases seat entry subs key deadline now wall with ⟨hmark, -⟩ | ⟨r, -, -, heq⟩
    · rw [hmark]
      exact hlate
    · rw [heq]
      unfold Seat.bootstrapped
      simp only
      split
      · -- the watermark is this moment's
        rintro old since ⟨⟩ - hpast
        omega
      · exact hlate
  unfold Seat.forwarded
  generalize seat.released entry subs key deadline now wall = released at hreleased hlate' ⊢
  obtain ⟨seat', out, held⟩ := released
  cases held with
  | true => exact hreleased.lose (List.sublist_cons_self _ _)
  | false =>
    have hadmitted := hreleased.admitted hlate'
    simp only at hadmitted ⊢
    generalize seat'.admitted f deadline now = admitted at hadmitted ⊢
    obtain ⟨seat'', go⟩ := admitted
    cases go with
    | false =>
      simp only [Bool.false_eq_true, if_false, List.append_nil] at hadmitted ⊢
      exact hadmitted
    | true =>
      simp only [if_true] at hadmitted ⊢
      have hwritten : (named (if passes subs f then f.payload.batch.toList else [])).Sublist
          (markOf f).slot.toList := by
        split
        · unfold named markOf
          cases f.payload.batch with
          | none => exact List.Sublist.refl _
          | some b =>
            simp only [Option.toList_some, List.filterMap_cons, List.filterMap_nil, Option.bind_some]
            cases b.batchId <;> exact List.Sublist.refl _
        · exact List.nil_sublist _
      rw [named_append, ← List.append_assoc]
      refine ⟨hadmitted.queued, hadmitted.due.sublist ?_, fun x hx => hadmitted.behind x ?_⟩
      · exact ((List.Sublist.refl _).append hwritten).append (List.Sublist.refl _)
      · exact (((List.Sublist.refl _).append hwritten).append (List.Sublist.refl _)).subset hx

end Seat

/-! ## What a run is asked for -/

/-- The seat a market has, or will have, at the client. -/
def Sink.seatOf (s : Sink) (key : BookKey) : Seat := s.client.elim ⟨none, none⟩ fun c => c.seen.seat key

/-- A complete book with no event open. -/
def Whole (r : BookAccumulator) : Prop := r.baselined = true ∧ r.pending = []

/-- The next frame the client reads. -/
def Sink.Next (s : Sink) (f : PreparedFrame) : Prop :=
  ∃ rx buf, s.rx = some rx ∧ rx.missed = false ∧ rx.buf = f :: buf

/-- A step writes the bootstrap of a market from its entry. -/
def Act.Bootstraps (cfg : WsConfig) (key : BookKey) (s : Sink) (r : BookAccumulator) : Act → Prop
  | .connect _ => s.client = none ∧ Whole r
  | .subscribe f _ => ∃ c, s.client = some c ∧ c.subs.length < cfg.maxSubs ∧ f ∉ c.subs ∧
    wanted [f] key r = true ∧ Whole r
  | .unsubscribe f _ => ∃ c, s.client = some c ∧ f ∈ c.subs ∧
    wanted (c.subs.filter fun x => x ≠ f) key r = true ∧ Whole r
  | .repair t => ∃ c, s.client = some c ∧
    lagRepairReady c.lagRepairDue c.lastLagRepair cfg.lagRepairMinInterval t.now = true ∧
    wanted c.subs key r = true ∧ Whole r
  | .sweep t => ∃ c, s.client = some c ∧
    (c.seen.seat key).Releases r c.subs key cfg.bootstrapReleaseDeadline t.now
  | .read t => ∃ c f, s.client = some c ∧ s.Next f ∧ f.bookMarket = some key ∧
    (c.seen.seat key).Releases r c.subs key cfg.bootstrapReleaseDeadline t.now
  | _ => False

/-- A frame older than the market's bootstrap is read after the watermark's deadline. -/
def Act.Late (cfg : WsConfig) (key : BookKey) (s : Sink) : Act → Prop
  | .read t => ∃ f w since, s.Next f ∧ f.bookMarket = some key ∧ (s.seatOf key).watermark = some (w, since) ∧
    f.recvTsNs < w ∧ cfg.bootstrapReleaseDeadline ≤ t.now - since
  | _ => False

/-- A batch names the category it is emitted under. -/
def Call.Labels : Call → Prop
  | .emit b _ category _ _ _ => b.category = category
  | _ => True

/-- A price-aggregated market whose state is not dropped, and replays that iterate the whole map. -/
structure Plain (key : BookKey) (r : Relay) (i : Move) : Prop where
  calls : ∀ c, i = .call c → c.Prices key ∧ c.KeepsMarket key r.arbiter ∧ Call.Labels c
  iterates : ∀ act, i = .act act → act.1.Iterates r.sink

/-- The step takes no slot back: an entry it writes is fit, and it reads no frame late but one that names the
slot published last, with all those behind it. -/
structure TakesNothingBack (cfg : WsConfig) (key : BookKey) (r : Relay) (i : Move) : Prop where
  fit : ∀ act, i = .act act → ∀ e, r.sink.books.get key = some e → act.1.Bootstraps cfg key r.sink e →
    Fit (r.slot key) (marks key r.sink.unread) (r.sink.seatOf key) e
  late : ∀ act, i = .act act → act.1.Late cfg key r.sink → Settled (r.slot key) (marks key r.sink.unread)

/-! ## Every step -/

variable {s : Sink} {t : Moment}

theorem marks_append (key : BookKey) (q q' : List PreparedFrame) :
    marks key (q ++ q') = marks key q ++ marks key q' := by
  unfold marks
  rw [framesOf_append, List.map_append]

theorem marks_sublist {q q' : List PreparedFrame} (h : q'.Sublist q) : (marks key q').Sublist (marks key q) :=
  (h.filter _).map _

theorem marks_self {f : PreparedFrame} (hf : f.bookMarket = some key) (q : List PreparedFrame) :
    marks key (f :: q) = markOf f :: marks key q := by
  unfold marks framesOf
  rw [List.filter_cons, if_pos (decide_eq_true hf), List.map_cons]

theorem marks_ne {f : PreparedFrame} (hf : f.bookMarket ≠ some key) (q : List PreparedFrame) :
    marks key (f :: q) = marks key q := by
  unfold marks framesOf
  rw [List.filter_cons_of_neg (by simpa using hf)]

/-- When a frame was sent does not show. -/
theorem marks_prepare (m : FeedMessage) (now now' : Nat) (q : List PreparedFrame) :
    marks key (prepare m now :: q) = marks key (prepare m now' :: q) := by
  have hmarket : (prepare m now).bookMarket = (prepare m now').bookMarket := (alike_prepare m now now').market
  have hmark : markOf (prepare m now) = markOf (prepare m now') := by
    cases m with
    | book b =>
      simp only [prepare, markOf, bookFrame]
      split
      · rfl
      · rfl
    | orderBook b => rfl
    | market kind venue sourceId symbol channel => rfl
    | status venue sourceId => rfl
  by_cases hm : (prepare m now).bookMarket = some key
  · rw [marks_self hm, marks_self (hmarket ▸ hm), hmark]
  · rw [marks_ne hm, marks_ne (hmarket ▸ hm)]

theorem marks_send (cap : Capacity) (s : Sink) (m : FeedMessage) :
    (marks key (s.send cap m).unread).Sublist (marks key s.unread ++ marks key [prepare m 0]) := by
  rw [← marks_append]
  refine marks_sublist ?_
  unfold Sink.unread Sink.send
  rw [List.append_assoc]
  refine (List.Sublist.refl _).append ?_
  rcases s.backbone.send_cases cap.backbone m with hs | hs
  · rw [hs, List.map_append]
    exact List.Sublist.refl _
  · rw [hs, List.map_append]
    exact ((List.tail_sublist _).map _).append (List.Sublist.refl _)

theorem marks_serialize (cap : Capacity) (s : Sink) (now : Nat) :
    (marks key (s.serialize cap now).unread).Sublist (marks key s.unread) := by
  unfold Sink.serialize
  rcases s.backbone.recv_cases with ⟨-, hrecv⟩ | ⟨-, -, hrecv⟩ | ⟨m, rest, -, hbuf, hrecv⟩
  · rw [hrecv]
    exact List.Sublist.refl _
  · rw [hrecv]
  · rw [hrecv]
    simp only
    unfold Sink.unread
    rw [hbuf]
    cases s.rx with
    | none => exact marks_sublist (List.sublist_cons_self _ _)
    | some rx =>
      have hsent : (rx.send cap.prepared (prepare m now)).buf.Sublist (rx.buf ++ [prepare m now]) := by
        rcases rx.send_cases cap.prepared (prepare m now) with hs | hs
        · rw [hs]
        · rw [hs]
          exact (List.tail_sublist _).append (List.Sublist.refl _)
      simp only [Option.map_some, Option.elim_some, List.map_cons]
      refine (marks_sublist (hsent.append (List.Sublist.refl _))).trans ?_
      rw [List.append_assoc, List.singleton_append, marks_append, marks_append, marks_prepare m now 0]

theorem Climbs.uncons {x : Option Nat} {xs : List (Option Nat)} (h : Climbs w (x :: xs) w') :
    ∃ w₁, Climbs w [x] w₁ ∧ Climbs w₁ xs w' := by
  cases x with
  | none => exact ⟨w, rfl, h⟩
  | some s => exact ⟨some s, ⟨h.1, rfl⟩, h.2⟩

/-- What the arbiter broadcasts for the market climbs. -/
theorem Level.broadcast : ∀ (out : List NormalizedBook) {s : Sink} {w : Option Nat},
    Level told w (marks key s.unread) seat → (∀ b ∈ out, marketOf b = key) → Climbs w (out.map (·.batchId)) w' →
    Level told w' (marks key (Relay.broadcast cap s out).unread) seat
  | [], s, w, h, _, hclimb => by
    obtain rfl : w' = w := hclimb
    exact h
  | b :: out, s, w, h, habout, hclimb => by
    obtain ⟨w₁, hb, hout⟩ := Climbs.uncons hclimb
    have hkey : (prepare (.book b) 0).bookMarket = some key :=
      congrArg some (habout b List.mem_cons_self)
    have hslot : (markOf (prepare (.book b) 0)).slot = b.batchId := by
      simp only [markOf, prepare, bookFrame]
      split
      · rfl
      · rfl
    have hsent : Level told w₁ (marks key (s.send cap (.book b)).unread) seat := by
      have hmark : Climbs w [(markOf (prepare (.book b) 0)).slot] w₁ := by
        rw [hslot]
        exact hb
      refine (h.publish _ hmark).lose ?_
      have hmarks : marks key [prepare (.book b) 0] = [markOf (prepare (.book b) 0)] := marks_self hkey []
      rw [← hmarks]
      exact marks_send cap s (.book b)
    exact Level.broadcast out hsent (fun b' hb' => habout b' (List.mem_cons_of_mem _ hb')) hout

theorem Level.broadcast_ne : ∀ (out : List NormalizedBook) {s : Sink},
    Level told w (marks key s.unread) seat → (∀ b ∈ out, marketOf b ≠ key) →
    Level told w (marks key (Relay.broadcast cap s out).unread) seat
  | [], _, h, _ => h
  | b :: out, s, h, habout => by
    have hkey : (prepare (.book b) 0).bookMarket ≠ some key :=
      fun heq => habout b List.mem_cons_self (Option.some.inj heq)
    have hmarks : marks key [prepare (.book b) 0] = [] := marks_ne hkey []
    have hsent : Level told w (marks key (s.send cap (.book b)).unread) seat := by
      refine h.lose ?_
      have hsub : (marks key (s.send cap (.book b)).unread).Sublist _ := marks_send cap s (.book b)
      rw [hmarks, List.append_nil] at hsub
      exact hsub
    exact Level.broadcast_ne out hsent fun b' hb' => habout b' (List.mem_cons_of_mem _ hb')

/-- A client's replay. -/
theorem Level.replay {c : Client} (h : Level told w q (c.seen.seat key)) {books : BookSnapshot}
    (hiter : ∀ k, books.contains k = true → k ∈ t.iter) {subs : List SubFilter}
    (hfit : ∀ r, books.get key = some r → wanted subs key r = true → Whole r → Fit w q (c.seen.seat key) r) :
    Level (told ++ named (heard key (c.replay books subs t).2)) w q ((c.replay books subs t).1.seen.seat key) := by
  have hseat := Prod.ext_iff.mp (replay_seat (c := c) hiter subs key)
  simp only at hseat
  rw [hseat.1, hseat.2]
  exact h.replayed fun r hr hwanted hbase hpend => hfit r hr hwanted ⟨hbase, hpend⟩

theorem Level.nothing (h : Level told w q seat) : Level (told ++ named []) w q seat := by
  rw [show named [] = [] from rfl, List.append_nil]
  exact h

section Client

variable {c : Client} {books : BookSnapshot} (h : Level told w q (c.seen.seat key))
  (hiter : ∀ k, books.contains k = true → k ∈ t.iter)
include h hiter

theorem Level.subscribe {f : SubFilter}
    (hfit : ∀ r, books.get key = some r → c.subs.length < cfg.maxSubs → f ∉ c.subs → wanted [f] key r = true →
      Whole r → Fit w q (c.seen.seat key) r) :
    Level (told ++ named (heard key (c.subscribe cfg books f t).2)) w q
      ((c.subscribe cfg books f t).1.seen.seat key) := by
  unfold Client.subscribe
  split
  · exact h.nothing
  · rename_i hroom
    split
    · exact h.nothing
    · rename_i hnew
      exact Level.replay (c := { c with subs := c.subs ++ [f] }) h hiter fun r hr hwanted hwhole =>
        hfit r hr (Nat.lt_of_not_le hroom) hnew hwanted hwhole

theorem Level.unsubscribe {f : SubFilter}
    (hfit : ∀ r, books.get key = some r → f ∈ c.subs → wanted (c.subs.filter fun x => x ≠ f) key r = true →
      Whole r → Fit w q (c.seen.seat key) r) :
    Level (told ++ named (heard key (c.unsubscribe books f t).2)) w q
      ((c.unsubscribe books f t).1.seen.seat key) := by
  unfold Client.unsubscribe
  simp only
  split
  · rename_i hfewer
    have hmem : f ∈ c.subs := by
      by_contra hnot
      refine hfewer (congrArg List.length (List.filter_eq_self.mpr fun x hx => ?_))
      exact decide_eq_true fun heq => hnot (heq ▸ hx)
    exact Level.replay (c := { c with subs := c.subs.filter fun x => x ≠ f }) h hiter fun r hr hwanted hwhole =>
      hfit r hr hmem hwanted hwhole
  · exact h.nothing

theorem Level.repair
    (hfit : ∀ r, books.get key = some r →
      lagRepairReady c.lagRepairDue c.lastLagRepair cfg.lagRepairMinInterval t.now = true →
      wanted c.subs key r = true → Whole r → Fit w q (c.seen.seat key) r) :
    Level (told ++ named (heard key (c.repair cfg books t).2)) w q ((c.repair cfg books t).1.seen.seat key) := by
  unfold Client.repair
  split
  · rename_i hready
    exact Level.replay (c := { c with lagRepairDue := false }) h hiter fun r hr hwanted hwhole =>
      hfit r hr hready hwanted hwhole
  · exact h.nothing

omit hiter

theorem Level.sweep
    (hfit : ∀ r, books.get key = some r →
      (c.seen.seat key).Releases r c.subs key cfg.bootstrapReleaseDeadline t.now → Fit w q (c.seen.seat key) r) :
    Level (told ++ named (heard key (c.sweep cfg books t).2)) w q ((c.sweep cfg books t).1.seen.seat key) := by
  show Level (told ++ named (heard key (c.seen.sweep books c.subs cfg.bootstrapReleaseDeadline t.now t.wall
    t.iter).2)) w q ((c.seen.sweep books c.subs cfg.bootstrapReleaseDeadline t.now t.wall t.iter).1.seat key)
  by_cases hmem : key ∈ t.iter
  · obtain ⟨hseat, hout⟩ := sweep_mem books c.subs cfg.bootstrapReleaseDeadline t.now t.wall t.iter c.seen
      t.nodup hmem
    rw [hseat, hout]
    exact h.released hfit
  · obtain ⟨hseat, hout⟩ := sweep_notMem books c.subs cfg.bootstrapReleaseDeadline t.now t.wall t.iter c.seen
      hmem
    rw [hseat, hout]
    exact h.nothing

end Client

/-- **A frame is read.** -/
theorem Level.forward {c : Client} {books : BookSnapshot} {f : PreparedFrame} {rest : List PreparedFrame}
    (h : Level told w (marks key (f :: rest)) (c.seen.seat key)) (hdeadline : 0 < cfg.bootstrapReleaseDeadline)
    (hfit : ∀ r, books.get key = some r → f.bookMarket = some key →
      (c.seen.seat key).Releases r c.subs key cfg.bootstrapReleaseDeadline t.now →
      Fit w (marks key (f :: rest)) (c.seen.seat key) r)
    (hlate : ∀ old since, f.bookMarket = some key → (c.seen.seat key).watermark = some (old, since) →
      f.recvTsNs < old → cfg.bootstrapReleaseDeadline ≤ t.now - since → Settled w (marks key (f :: rest))) :
    Level (told ++ named (heard key (c.forward cfg books f t).2)) w (marks key rest)
      ((c.forward cfg books f t).1.seen.seat key) := by
  show Level (told ++ named (heard key (c.seen.forward books c.subs cfg.bootstrapReleaseDeadline t.now t.wall
    f).2)) w _ ((c.seen.forward books c.subs cfg.bootstrapReleaseDeadline t.now t.wall f).1.seat key)
  by_cases hf : f.bookMarket = some key
  · rw [marks_self hf] at h hfit hlate
    have hseat := Prod.ext_iff.mp
      (forward_self books c.subs cfg.bootstrapReleaseDeadline t.now t.wall c.seen hf)
    simp only at hseat
    rw [hseat.1, hseat.2]
    exact h.forwarded hdeadline (fun r hr hready => hfit r hr hf hready)
      fun old since hmark hold hpast => hlate old since hf hmark hold hpast
  · rw [marks_ne hf] at h
    obtain ⟨hseat, hout⟩ := forward_ne books c.subs cfg.bootstrapReleaseDeadline t.now t.wall c.seen hf
    rw [hseat, hout]
    exact h.nothing

/-- What every step keeps. -/
structure Abreast (key : BookKey) (r : Relay) (told : List Nat) : Prop where
  single : SinglePath (r.arbiter.view key)
  level : Level told (r.slot key) (marks key r.sink.unread) (r.sink.seatOf key)

variable {r : Relay}

theorem Abreast.call (h : Abreast key r told) {c : Call} (hp : Plain key r (.call c)) :
    Abreast key (r.step cap cfg (.call c)).1 told := by
  obtain ⟨hprices, hkeeps, hlabels⟩ := hp.calls c rfl
  have hclimb := step_climbs h.single hprices hkeeps
  have hlevel : Level told (r.slot key) (marks key
      ({ r.sink with books := (Arbiter.step r.arbiter c).1.bookReplay.getD ∅ } : Sink).unread)
        (r.sink.seatOf key) := h.level
  have habout : ∀ b ∈ (Arbiter.step r.arbiter c).2, c.market = some (marketOf b) := by
    cases c with
    | emit b publisher category synthesized now wall =>
      exact fun x hx => congrArg some (emitScoped_about hlabels synthesized now x hx).symm
    | _ => exact nofun
  refine ⟨h.single.call c hprices, ?_⟩
  have hseat : ∀ (out : List NormalizedBook) (s : Sink), (Relay.broadcast cap s out).seatOf key = s.seatOf key := by
    intro out
    induction out with
    | nil => exact fun _ => rfl
    | cons b out ih => exact fun s => ih (s.send cap (.book b))
  show Level told ((Arbiter.step r.arbiter c).1.view key).slot (marks key (Relay.broadcast cap
    { r.sink with books := (Arbiter.step r.arbiter c).1.bookReplay.getD ∅ } (Arbiter.step r.arbiter c).2).unread)
      ((Relay.broadcast cap _ _).seatOf key)
  rw [hseat]
  by_cases hmarket : c.market = some key
  · rw [if_pos hmarket] at hclimb
    refine hlevel.broadcast _ (fun b hb => ?_) hclimb
    exact Option.some.inj ((habout b hb).symm.trans hmarket)
  · rw [if_neg hmarket] at hclimb
    have hslot : ((Arbiter.step r.arbiter c).1.view key).slot = r.slot key := hclimb
    rw [hslot]
    refine hlevel.broadcast_ne _ fun b hb heq => hmarket ?_
    rw [← heq]
    exact habout b hb

/-- The client takes a step of its own. -/
theorem Abreast.turn (h : Abreast key r told) {act : Client → Client × List Sent}
    (hact : ∀ c, r.sink.client = some c →
      Level told (r.slot key) (marks key r.sink.unread) (c.seen.seat key) →
      Level (told ++ named (heard key (act c).2)) (r.slot key) (marks key r.sink.unread) ((act c).1.seen.seat key)) :
    Abreast key ⟨r.arbiter, (r.sink.turn act).1⟩ (told ++ named (heard key (r.sink.turn act).2)) := by
  have hlevel := h.level
  unfold Sink.seatOf at hlevel
  unfold Sink.turn
  cases hc : r.sink.client with
  | none => exact ⟨h.single, h.level.nothing⟩
  | some c =>
    rw [hc] at hlevel
    exact ⟨h.single, hact c hc hlevel⟩

theorem Abreast.connect (h : Abreast key r told) (hiter : ∀ k, r.sink.books.contains k = true → k ∈ t.iter)
    (hfit : ∀ e, r.sink.books.get key = some e → r.sink.client = none → Whole e →
      Fit (r.slot key) (marks key r.sink.unread) (r.sink.seatOf key) e) :
    Abreast key ⟨r.arbiter, (r.sink.connect t).1⟩ (told ++ named (heard key (r.sink.connect t).2)) := by
  have hlevel := h.level
  unfold Sink.seatOf at hlevel hfit
  unfold Sink.connect
  split
  · rename_i rx hrx hc
    rw [hc] at hlevel hfit
    refine ⟨h.single, ?_⟩
    show Level (told ++ named (heard key (Client.connect r.sink.books t).2)) (r.slot key) (marks key r.sink.unread)
      ((Client.connect r.sink.books t).1.seen.seat key)
    exact Level.replay hlevel hiter fun e he _ hwhole => hfit e he rfl hwhole
  · exact ⟨h.single, h.level.nothing⟩

theorem Abreast.read (h : Abreast key r told) (hdeadline : 0 < cfg.bootstrapReleaseDeadline)
    (hfit : ∀ e, r.sink.books.get key = some e → (Act.read t).Bootstraps cfg key r.sink e →
      Fit (r.slot key) (marks key r.sink.unread) (r.sink.seatOf key) e)
    (hlate : (Act.read t).Late cfg key r.sink → Settled (r.slot key) (marks key r.sink.unread)) :
    Abreast key ⟨r.arbiter, (r.sink.read cfg t).1⟩ (told ++ named (heard key (r.sink.read cfg t).2)) := by
  have hlevel := h.level
  unfold Sink.read
  split
  · rename_i rx c hrx hc
    have hseat : r.sink.seatOf key = c.seen.seat key := by
      unfold Sink.seatOf
      rw [hc]
      rfl
    rw [hseat] at hlevel hfit
    rcases rx.recv_cases with ⟨-, hrecv⟩ | ⟨-, -, hrecv⟩ | ⟨f, buf, hmissed, hbuf, hrecv⟩
    · rw [hrecv]
      have hunread : Sink.unread ⟨r.sink.books, r.sink.backbone, some ⟨rx.buf, false⟩, some c.lagged⟩ =
          r.sink.unread := by
        unfold Sink.unread
        rw [hrx]
        rfl
      refine ⟨h.single, Level.nothing ?_⟩
      show Level told (r.slot key) (marks key (Sink.unread ⟨r.sink.books, _, some _, some _⟩))
        (c.lagged.seen.seat key)
      rw [hunread, lagged_seen]
      exact hlevel
    · rw [hrecv]
      exact ⟨h.single, h.level.nothing⟩
    · rw [hrecv]
      have hunread : r.sink.unread = f :: (buf ++ r.sink.backbone.buf.map (prepare · 0)) := by
        unfold Sink.unread
        rw [hrx]
        exact congrArg (· ++ _) hbuf
      have hnext : r.sink.Next f := ⟨rx, buf, hrx, hmissed, hbuf⟩
      rw [hunread] at hlevel hfit hlate
      refine ⟨h.single, ?_⟩
      refine hlevel.forward hdeadline (fun e he hf hready => hfit e he ⟨c, f, hc, hnext, hf, hready⟩) ?_
      intro old since hf hmark hold hpast
      exact hlate ⟨f, old, since, hnext, hf, hseat ▸ hmark, hold, hpast⟩
  · exact ⟨h.single, h.level.nothing⟩

/-- **Every step that takes nothing back keeps the client abreast.** -/
theorem Abreast.step (h : Abreast key r told) (hdeadline : 0 < cfg.bootstrapReleaseDeadline) {i : Move}
    (hp : Plain key r i) (hi : TakesNothingBack cfg key r i) :
    Abreast key (r.step cap cfg i).1 (told ++ named (heard key (r.step cap cfg i).2)) := by
  cases i with
  | call c =>
    have hcall : Abreast key (r.step cap cfg (.call c)).1 told := h.call hp
    exact ⟨hcall.single, hcall.level.nothing⟩
  | act act =>
    have hiter := hp.iterates act rfl
    have hfit := hi.fit act rfl
    have hlate := hi.late act rfl
    obtain ⟨act, hact⟩ := act
    have hseat : ∀ c, r.sink.client = some c → r.sink.seatOf key = c.seen.seat key := by
      intro c hc
      unfold Sink.seatOf
      rw [hc]
      rfl
    cases act with
    | publish b => exact absurd rfl (hact b)
    | announce m =>
      refine ⟨h.single, (h.level.lose ?_).nothing⟩
      have hsub : (marks key (r.sink.send cap m.1).unread).Sublist _ := marks_send cap r.sink m.1
      have hmarks : marks key [prepare m.1 0] = [] := marks_ne (by rw [announce_market m]; exact nofun) []
      rw [hmarks, List.append_nil] at hsub
      exact hsub
    | serialize now =>
      have hclient : (r.sink.serialize cap now).seatOf key = r.sink.seatOf key := by
        unfold Sink.serialize Sink.seatOf
        split
        · rfl
        · rfl
      refine ⟨h.single, Level.nothing ?_⟩
      show Level told (r.slot key) (marks key (r.sink.serialize cap now).unread)
        ((r.sink.serialize cap now).seatOf key)
      rw [hclient]
      exact h.level.lose (marks_serialize cap r.sink now)
    | accept =>
      have hsame : r.sink.accept.unread = r.sink.unread ∧ r.sink.accept.seatOf key = r.sink.seatOf key := by
        unfold Sink.accept
        split
        · rename_i hrx
          refine ⟨?_, rfl⟩
          unfold Sink.unread
          rw [hrx]
          rfl
        · exact ⟨rfl, rfl⟩
      refine ⟨h.single, Level.nothing ?_⟩
      show Level told (r.slot key) (marks key r.sink.accept.unread) (r.sink.accept.seatOf key)
      rw [hsame.1, hsame.2]
      exact h.level
    | connect t => exact h.connect hiter fun e he hc hwhole => hfit e he ⟨hc, hwhole⟩
    | subscribe f t =>
      refine h.turn fun c hc hlevel => hlevel.subscribe hiter fun e he hroom hnew hwanted hwhole => ?_
      exact hseat c hc ▸ hfit e he ⟨c, hc, hroom, hnew, hwanted, hwhole⟩
    | unsubscribe f t =>
      refine h.turn fun c hc hlevel => hlevel.unsubscribe hiter fun e he hmem hwanted hwhole => ?_
      exact hseat c hc ▸ hfit e he ⟨c, hc, hmem, hwanted, hwhole⟩
    | repair t =>
      refine h.turn fun c hc hlevel => hlevel.repair hiter fun e he hready hwanted hwhole => ?_
      exact hseat c hc ▸ hfit e he ⟨c, hc, hready, hwanted, hwhole⟩
    | sweep t =>
      refine h.turn fun c hc hlevel => hlevel.sweep fun e he hready => ?_
      exact hseat c hc ▸ hfit e he ⟨c, hc, hready⟩
    | read t => exact h.read hdeadline hfit hlate

/-! ## Every run -/

/-- The slots a client is told of a market over a run. -/
def toldOf (key : BookKey) (t : List (Move × List Sent)) : List Nat := t.flatMap fun e => named (heard key e.2)

theorem toldOf_snoc (t : List (Move × List Sent)) (e : Move × List Sent) :
    toldOf key (t ++ [e]) = toldOf key t ++ named (heard key e.2) := by
  unfold toldOf
  rw [List.flatMap_append, List.flatMap_cons, List.flatMap_nil, List.append_nil]

/-- **A client is never told an older slot.**  In every run of the gate over a price-aggregated market whose
state is not dropped, and of a client of it, whose steps all take nothing back, the slots named to the client
for the market never go back. -/
theorem slots_never_go_back (cap : Capacity) (cfg : WsConfig) (hdeadline : 0 < cfg.bootstrapReleaseDeadline)
    (modes : FinMap String ArbitrationMode) (sharedSlots : FinMap String (Finset String)) (acfg : AuthorityConfig)
    (dedupWindowNs : Nat) (guardCfg : BookGuardConfig) (wired : Bool) (key : BookKey) (moves : List Move)
    (hplain : (relayMachine cap cfg).Along (Plain key)
      (.start (.new modes sharedSlots acfg dedupWindowNs guardCfg wired)) moves)
    (hback : (relayMachine cap cfg).Along (TakesNothingBack cfg key)
      (.start (.new modes sharedSlots acfg dedupWindowNs guardCfg wired)) moves) :
    (toldOf key ((relayMachine cap cfg).trace
      (.start (.new modes sharedSlots acfg dedupWindowNs guardCfg wired)) moves)).Pairwise (· ≤ ·) := by
  have hstart : Abreast key (.start (.new modes sharedSlots acfg dedupWindowNs guardCfg wired))
      (toldOf key []) := by
    refine ⟨singlePath_new modes sharedSlots acfg dedupWindowNs guardCfg wired, ?_⟩
    exact ⟨List.Pairwise.nil, List.Pairwise.nil, nofun⟩
  have hrun : Abreast key ((relayMachine cap cfg).exec _ moves) (toldOf key ((relayMachine cap cfg).trace _ moves)) :=
    Machine.along_history_rule (P := fun t r => Abreast key r (toldOf key t)) hstart
      (fun t r i hi h => by
        rw [toldOf_snoc]
        exact h.step hdeadline hi.1 hi.2)
      moves (hplain.and hback)
  exact hrun.level.told_sorted

/-! ## A handover -/

def slotBatch (slot recvTsNs : Nat) : NormalizedBook :=
  { levelBatch 7 [BookAccumulator.clearBoth] true recvTsNs with batchId := some slot }

def slotCall (path slot recvTsNs : Nat) : Call := .emit (slotBatch slot recvTsNs) (.edge path) "c" false 0 0

def everyBook : SubFilter := ⟨none, none, none, none, none, none, none⟩

/-- A path is at slot 10 and falls silent; another one, at `slot`, takes over, and the client subscribes. -/
def handoverMoves (slot : Nat) : List Move :=
  [.act ⟨.accept, nofun⟩, .act ⟨.connect instant, nofun⟩, .call (slotCall 1 10 0), .act ⟨.serialize 0, nofun⟩,
    .act ⟨.read instant, nofun⟩, .call (slotCall 2 slot 3000000000), .act ⟨.subscribe everyBook instant, nofun⟩,
    .act ⟨.serialize 0, nofun⟩, .act ⟨.read instant, nofun⟩]

theorem plain_slotCall (path slot recvTsNs : Nat)
    (hkeep : (slotCall path slot recvTsNs).KeepsMarket sampleKey r.arbiter) :
    Plain sampleKey r (.call (slotCall path slot recvTsNs)) := by
  refine ⟨fun c hc => ?_, fun act hact => ?_⟩
  · cases hc
    refine ⟨fun _ c hc => ?_, hkeep, rfl⟩
    rw [List.mem_singleton.mp hc]
    rfl
  · cases hact

theorem plain_act {i : SinkAct} (hiter : i.1.Iterates r.sink) : Plain key r (.act i) := by
  refine ⟨fun c hc => ?_, fun act hact => ?_⟩
  · cases hc
  · cases hact
    exact hiter

theorem iterates_sampleKey {books : BookSnapshot}
    (h : ∃ x y, books = ((∅ : BookSnapshot).insert sampleKey x).insert sampleKey y) :
    ∀ k, books.contains k = true → k ∈ instant.iter := by
  obtain ⟨x, y, rfl⟩ := h
  intro k hk
  refine List.mem_singleton.mpr ?_
  by_contra hne
  rw [FinMap.contains_eq_true] at hk
  simp only [FinMap.get_insert_of_ne _ _ hne, FinMap.get_empty] at hk
  obtain ⟨e, he⟩ := hk
  cases he

theorem handoverMoves_plain {slot : Nat} (hslot : slot = 5 ∨ slot = 12) :
    (relayMachine ⟨8, 8⟩ sampleConfig).Along (Plain sampleKey) (.start fresh) (handoverMoves slot) := by
  refine ⟨plain_act trivial, plain_act nofun, plain_slotCall 1 10 0 nofun, plain_act trivial, plain_act trivial,
    plain_slotCall 2 slot 3000000000 fun _ => ?_, plain_act (iterates_sampleKey ?_), plain_act trivial,
    plain_act trivial, trivial⟩
  · rcases hslot with rfl | rfl
    · rfl
    · rfl
  · rcases hslot with rfl | rfl
    · exact ⟨_, _, rfl⟩
    · exact ⟨_, _, rfl⟩

theorem takesNothingBack_call (c : Call) : TakesNothingBack cfg key r (.call c) := by
  refine ⟨fun act hact => ?_, fun act hact => ?_⟩
  · cases hact
  · cases hact

theorem takesNothingBack_act {i : SinkAct}
    (hfit : ∀ e, r.sink.books.get key = some e → i.1.Bootstraps cfg key r.sink e →
      Fit (r.slot key) (marks key r.sink.unread) (r.sink.seatOf key) e)
    (hlate : i.1.Late cfg key r.sink → Settled (r.slot key) (marks key r.sink.unread)) :
    TakesNothingBack cfg key r (.act i) := by
  refine ⟨fun act hact => ?_, fun act hact => ?_⟩
  · cases hact
    exact hfit
  · cases hact
    exact hlate

theorem slots_never_go_back_handover :
    toldOf sampleKey ((relayMachine ⟨8, 8⟩ sampleConfig).trace (.start fresh) (handoverMoves 12)) = [10, 12] ∧
      (toldOf sampleKey ((relayMachine ⟨8, 8⟩ sampleConfig).trace (.start fresh)
        (handoverMoves 12))).Pairwise (· ≤ ·) := by
  have hback : (relayMachine ⟨8, 8⟩ sampleConfig).Along (TakesNothingBack sampleConfig sampleKey) (.start fresh)
      (handoverMoves 12) := by
    refine ⟨takesNothingBack_act nofun nofun, takesNothingBack_act nofun nofun, takesNothingBack_call _,
      takesNothingBack_act nofun nofun, takesNothingBack_act ?_ ?_, takesNothingBack_call _,
      takesNothingBack_act ?_ nofun, takesNothingBack_act nofun nofun, takesNothingBack_act ?_ ?_, trivial⟩
    · rintro e - ⟨c, f, ⟨⟩, -, -, since, hsince, -⟩
      cases hsince
    · rintro ⟨f, w, since, -, -, hmark, -⟩
      cases hmark
    · -- the path that took over is ahead, and so is the entry
      rintro e ⟨⟩ -
      refine Or.inr ⟨rfl, fun x hx => ?_⟩
      cases hx
    · rintro e - ⟨c, f, ⟨⟩, -, -, since, hsince, -⟩
      cases hsince
    · rintro ⟨f, w, since, -, -, hmark, -, hpast⟩
      cases hmark
      exact absurd hpast (by decide)
  exact ⟨rfl, slots_never_go_back ⟨8, 8⟩ sampleConfig (by decide) ∅ ∅ .DEFAULT 0 .DEFAULT true sampleKey
    (handoverMoves 12) (handoverMoves_plain (Or.inr rfl)) hback⟩

/-- **A replay after a handover takes a slot back.**  The batch of a path that is behind is broadcast without
its slot, and the replay entry keeps it. -/
theorem handover_replay_goes_back :
    (relayMachine ⟨8, 8⟩ sampleConfig).Along (Plain sampleKey) (.start fresh) (handoverMoves 5) ∧
      toldOf sampleKey ((relayMachine ⟨8, 8⟩ sampleConfig).trace (.start fresh) (handoverMoves 5)) = [10, 5] ∧
      ¬ (toldOf sampleKey ((relayMachine ⟨8, 8⟩ sampleConfig).trace (.start fresh)
        (handoverMoves 5))).Pairwise (· ≤ ·) := by
  have htold : toldOf sampleKey ((relayMachine ⟨8, 8⟩ sampleConfig).trace (.start fresh) (handoverMoves 5)) =
    [10, 5] := rfl
  refine ⟨handoverMoves_plain (Or.inl rfl), htold, ?_⟩
  rw [htold]
  decide

end EdgeConnect.Ws
