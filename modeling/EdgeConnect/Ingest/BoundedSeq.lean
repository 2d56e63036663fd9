import EdgeConnect.Ingest.Receiver
import EdgeConnect.Lib.Machine

/-!
# The bounded sequence tracker (`src/ingest/receiver.rs`)

`SeqTracker::bounded` follows a channel's sequence by at most `MAX_SEQ_ADVANCE` a datagram, or by a run of
datagrams past the bound that lasts `SEQ_RESEAT_NS`.

* `seqMachine` — the tracker over a run of datagram headers;
* `Below`, `PastBound` — where a header stands to its channel's anchor, and the verdict each gets;
* `Reseated` — the run of datagrams behind a re-seat, kept by every step (`runs_kept`);
* `honest_ok` — forged headers that never sit within the bound cannot move the anchor of a live channel;
* `boundedSeq` — the three together with the independence of the channels.
-/

set_option autoImplicit false

namespace EdgeConnect.Ingest

/-- One `check` call. -/
structure SeqCall where
  channel : Nat
  resetCount : Nat
  sequence : Nat
  nowNs : Nat
  deriving DecidableEq, Repr

namespace SeqTracker

/-- `SeqTracker::bounded`. -/
def newBounded : SeqTracker := ⟨∅, true⟩

/-- The tracker as it classifies one header after the other. -/
def seqMachine : Machine SeqTracker SeqCall SeqCheck :=
  ⟨fun t i => t.check i.channel i.resetCount i.sequence i.nowNs⟩

/-! ## What one call does -/

/-- A header of its channel's era below the anchor. -/
def Below (t : SeqTracker) (i : SeqCall) : Prop :=
  ∃ e, t.last.get i.channel = some e ∧ i.resetCount = e.resetCount ∧ i.sequence < e.sequence

/-- A header of its channel's era further ahead of the anchor than one datagram may move it. -/
def PastBound (t : SeqTracker) (i : SeqCall) : Prop :=
  ∃ e, t.last.get i.channel = some e ∧ i.resetCount = e.resetCount ∧
    e.sequence + MAX_SEQ_ADVANCE < i.sequence

/-- Two sequences no further apart than one datagram may move the anchor. -/
def Near (a b : Nat) : Prop := a ≤ b + MAX_SEQ_ADVANCE ∧ b ≤ a + MAX_SEQ_ADVANCE

theorem near_iff (a b : Nat) : a - b + (b - a) ≤ MAX_SEQ_ADVANCE ↔ Near a b := by
  unfold Near
  omega

/-- The start of the run past the bound that a header continues or begins. -/
def since (e : SeqAnchor) (i : SeqCall) : Nat :=
  match e.bounded with
  | some (since, latest) => if i.sequence - latest + (latest - i.sequence) ≤ MAX_SEQ_ADVANCE then since else i.nowNs
  | none => i.nowNs

/-- The anchor a header that is accepted leaves. -/
def seated (i : SeqCall) : SeqAnchor := ⟨i.resetCount, i.sequence, none⟩

/-- `check` in these words. -/
theorem step_eq (t : SeqTracker) (i : SeqCall) :
    seqMachine.step t i =
      match t.last.get i.channel with
      | none => ({ t with last := t.last.insert i.channel (seated i) }, .first)
      | some e =>
        if i.resetCount ≠ e.resetCount then ({ t with last := t.last.insert i.channel (seated i) }, .reset)
        else if i.sequence < e.sequence then (t, .stale)
        else if t.bounded = false ∨ i.sequence - e.sequence ≤ MAX_SEQ_ADVANCE then
          ({ t with last := t.last.insert i.channel (seated i) }, .ok)
        else if i.nowNs - since e i ≥ SEQ_RESEAT_NS then
          ({ t with last := t.last.insert i.channel (seated i) }, .reseat)
        else ({ t with last := t.last.insert i.channel { e with bounded := some (since e i, i.sequence) } }, .bounded) :=
  rfl

/-- How a call on a bounded tracker ends, with the anchor it leaves on its channel. -/
inductive Checked (t : SeqTracker) (i : SeqCall) : Option SeqAnchor → SeqCheck → Prop
  | first (h : t.last.get i.channel = none) : Checked t i (some (seated i)) .first
  | reset (e : SeqAnchor) (h : t.last.get i.channel = some e) (hr : i.resetCount ≠ e.resetCount) :
      Checked t i (some (seated i)) .reset
  | stale (e : SeqAnchor) (h : t.last.get i.channel = some e) (hr : i.resetCount = e.resetCount)
      (hs : i.sequence < e.sequence) : Checked t i (some e) .stale
  | ok (e : SeqAnchor) (h : t.last.get i.channel = some e) (hr : i.resetCount = e.resetCount)
      (hs : e.sequence ≤ i.sequence) (hb : i.sequence ≤ e.sequence + MAX_SEQ_ADVANCE) :
      Checked t i (some (seated i)) .ok
  | reseat (e : SeqAnchor) (h : t.last.get i.channel = some e) (hr : i.resetCount = e.resetCount)
      (hb : e.sequence + MAX_SEQ_ADVANCE < i.sequence) (hn : since e i + SEQ_RESEAT_NS ≤ i.nowNs) :
      Checked t i (some (seated i)) .reseat
  | bounded (e : SeqAnchor) (h : t.last.get i.channel = some e) (hr : i.resetCount = e.resetCount)
      (hb : e.sequence + MAX_SEQ_ADVANCE < i.sequence) (hn : i.nowNs < since e i + SEQ_RESEAT_NS) :
      Checked t i (some { e with bounded := some (since e i, i.sequence) }) .bounded

/-- Every call on a bounded tracker is one of the six, and touches its own channel only. -/
theorem checked {t : SeqTracker} (ht : t.bounded = true) (i : SeqCall) :
    Checked t i ((seqMachine.step t i).1.last.get i.channel) (seqMachine.step t i).2 ∧
      (seqMachine.step t i).1.bounded = true ∧
      ∀ c, c ≠ i.channel → (seqMachine.step t i).1.last.get c = t.last.get c := by
  rw [step_eq]
  cases h : t.last.get i.channel with
  | none =>
    refine ⟨?_, ht, fun c hc => by simp [FinMap.get_insert, hc]⟩
    simpa using Checked.first h
  | some e =>
    simp only
    split
    · rename_i hr
      refine ⟨?_, ht, fun c hc => by simp [FinMap.get_insert, hc]⟩
      simpa using Checked.reset e h hr
    · rename_i hr
      have hr : i.resetCount = e.resetCount := by omega
      split
      · rename_i hs
        refine ⟨?_, ht, fun c _ => rfl⟩
        simpa [h] using Checked.stale e h hr hs
      · split
        · rename_i hs hb
          refine ⟨?_, ht, fun c hc => by simp [FinMap.get_insert, hc]⟩
          have hb : i.sequence ≤ e.sequence + MAX_SEQ_ADVANCE := by
            rcases hb with hb | hb
            · rw [ht] at hb; cases hb
            · omega
          simpa using Checked.ok e h hr (by omega) hb
        · rename_i hs hb
          have hb : e.sequence + MAX_SEQ_ADVANCE < i.sequence := by
            simp only [not_or] at hb
            omega
          have hpos : 0 < SEQ_RESEAT_NS := by decide
          split
          · rename_i hn
            refine ⟨?_, ht, fun c hc => by simp [FinMap.get_insert, hc]⟩
            simpa using Checked.reseat e h hr hb (by omega)
          · rename_i hn
            refine ⟨?_, ht, fun c hc => by simp [FinMap.get_insert, hc]⟩
            simpa using Checked.bounded e h hr hb (by omega)

/-- A tracker stays bounded. -/
theorem bounded_exec {t : SeqTracker} (ht : t.bounded = true) (is : List SeqCall) :
    (seqMachine.exec t is).bounded = true :=
  Machine.invariant_rule (P := fun t => t.bounded = true) (fun _ i h => (checked h i).2.1) is t ht

theorem stale_iff {t : SeqTracker} (ht : t.bounded = true) (i : SeqCall) :
    (seqMachine.step t i).2 = .stale ↔ Below t i := by
  have hc := (checked ht i).1
  unfold Below
  generalize (seqMachine.step t i).2 = v, (seqMachine.step t i).1.last.get i.channel = a at hc
  cases hc <;> simp_all <;> omega

theorem pastBound_iff {t : SeqTracker} (ht : t.bounded = true) (i : SeqCall) :
    ((seqMachine.step t i).2 = .bounded ∨ (seqMachine.step t i).2 = .reseat) ↔ PastBound t i := by
  have hc := (checked ht i).1
  unfold PastBound
  generalize (seqMachine.step t i).2 = v, (seqMachine.step t i).1.last.get i.channel = a at hc
  cases hc <;> simp_all
  omega

/-- Within an era a call never lowers its anchor, and leaves the era only for another. -/
theorem anchor_step {t : SeqTracker} (ht : t.bounded = true) (i : SeqCall) {c : Nat} {e : SeqAnchor}
    (h : t.last.get c = some e) (hi : i.channel = c → i.resetCount = e.resetCount) :
    ∃ e', (seqMachine.step t i).1.last.get c = some e' ∧ e'.resetCount = e.resetCount ∧
      e.sequence ≤ e'.sequence := by
  obtain ⟨hc, -, hother⟩ := checked ht i
  by_cases hic : c = i.channel
  · subst hic
    have hr := hi rfl
    generalize (seqMachine.step t i).2 = v, (seqMachine.step t i).1.last.get i.channel = a at hc
    cases hc <;> simp_all [seated]; omega
  · exact ⟨e, by rw [hother c hic, h], rfl, le_rfl⟩

/-- Within an era the anchor of a channel never decreases. -/
theorem anchor_run (c : Nat) :
    ∀ (is : List SeqCall) (t : SeqTracker) (e : SeqAnchor), t.bounded = true → t.last.get c = some e →
      (∀ i ∈ is, i.channel = c → i.resetCount = e.resetCount) →
      ∃ e', (seqMachine.exec t is).last.get c = some e' ∧ e'.resetCount = e.resetCount ∧ e.sequence ≤ e'.sequence
  | [], _, e, _, h, _ => ⟨e, h, rfl, le_rfl⟩
  | i :: is, t, e, ht, h, hera => by
    obtain ⟨e₁, h₁, hr₁, hs₁⟩ := anchor_step ht i h (hera i List.mem_cons_self)
    obtain ⟨e', h', hr', hs'⟩ := anchor_run c is _ e₁ (checked ht i).2.1 h₁
      fun j hj hjc => (hera j (List.mem_cons_of_mem _ hj) hjc).trans hr₁.symm
    exact ⟨e', h', hr'.trans hr₁, hs₁.trans hs'⟩

/-- Within an era only a re-seat moves the anchor further than the bound. -/
theorem jump_reseat {t : SeqTracker} (ht : t.bounded = true) (i : SeqCall) {e e' : SeqAnchor}
    (h : t.last.get i.channel = some e) (h' : (seqMachine.step t i).1.last.get i.channel = some e')
    (hr : e'.resetCount = e.resetCount) (hs : e.sequence + MAX_SEQ_ADVANCE < e'.sequence) :
    (seqMachine.step t i).2 = .reseat := by
  have hc := (checked ht i).1
  rw [h'] at hc
  generalize (seqMachine.step t i).2 = v at hc
  cases hc <;> simp_all [seated]; omega

/-! ## The run behind a re-seat -/

/-- What a channel was answered while a run past its bound lasted: nothing but refusals. -/
def Refused (c : Nat) (u : List (SeqCall × SeqCheck)) : Prop :=
  ∀ x ∈ u, x.1.channel = c → x.2 = .stale ∨ x.2 = .bounded

/-- The sequences of a channel that were past its bound, in the order they came. -/
def pastSequences (c : Nat) (u : List (SeqCall × SeqCheck)) : List Nat :=
  (u.filter fun x => x.1.channel = c ∧ x.2 = .bounded).map fun x => x.1.sequence

/-- A run past the bound of a channel that `j` began: no datagram within the bound since, each past it near the one
before. -/
structure OpenRun (done : List (SeqCall × SeqCheck)) (c : Nat) (j : SeqCall) (u : List (SeqCall × SeqCheck)) :
    Prop where
  cut : ∃ p, done = p ++ (j, .bounded) :: u
  channel : j.channel = c
  refused : Refused c u
  near : (j.sequence :: pastSequences c u).IsChain Near

/-- The run that `i` re-seats its channel after: it has lasted long enough, and `i` is near its last datagram. -/
def ReseatRun (done : List (SeqCall × SeqCheck)) (i : SeqCall) : Prop :=
  ∃ j u, OpenRun done i.channel j u ∧ j.nowNs + SEQ_RESEAT_NS ≤ i.nowNs ∧
    (j.sequence :: pastSequences i.channel u ++ [i.sequence]).IsChain Near

/-- Every run an anchor remembers is one of the trace. -/
def RunsKept (done : List (SeqCall × SeqCheck)) (t : SeqTracker) : Prop :=
  ∀ c e start latest, t.last.get c = some e → e.bounded = some (start, latest) →
    ∃ j u, OpenRun done c j u ∧ j.nowNs = start ∧ (j.sequence :: pastSequences c u).getLast? = some latest

theorem refused_snoc {c : Nat} {u : List (SeqCall × SeqCheck)} {i : SeqCall} {v : SeqCheck} (h : Refused c u)
    (hv : i.channel = c → v = .stale ∨ v = .bounded) : Refused c (u ++ [(i, v)]) := by
  intro x hx hxc
  rcases List.mem_append.mp hx with hx | hx
  · exact h x hx hxc
  · cases List.mem_singleton.mp hx
    exact hv hxc

/-- A datagram that is not past the bound of the channel leaves its open run as it is. -/
theorem OpenRun.skip {done : List (SeqCall × SeqCheck)} {c : Nat} {j i : SeqCall} {u : List (SeqCall × SeqCheck)}
    {v : SeqCheck} (h : OpenRun done c j u) (hv : i.channel = c → v = .stale) :
    OpenRun (done ++ [(i, v)]) c j (u ++ [(i, v)]) ∧ pastSequences c (u ++ [(i, v)]) = pastSequences c u := by
  obtain ⟨⟨p, rfl⟩, hj, hu, hn⟩ := h
  have hp : pastSequences c (u ++ [(i, v)]) = pastSequences c u := by
    have hout : ¬ (i.channel = c ∧ v = .bounded) := by
      rintro ⟨hic, rfl⟩
      cases hv hic
    simp [pastSequences, hout]
  exact ⟨⟨⟨p, by simp⟩, hj, refused_snoc hu fun hic => .inl (hv hic), by rw [hp]; exact hn⟩, hp⟩

/-- A datagram past the bound and near the last one of an open run continues it. -/
theorem OpenRun.extend {done : List (SeqCall × SeqCheck)} {c latest : Nat} {j i : SeqCall}
    {u : List (SeqCall × SeqCheck)} (h : OpenRun done c j u)
    (hl : (j.sequence :: pastSequences c u).getLast? = some latest) (hic : i.channel = c)
    (hn : Near i.sequence latest) :
    OpenRun (done ++ [(i, .bounded)]) c j (u ++ [(i, .bounded)]) ∧
      pastSequences c (u ++ [(i, .bounded)]) = pastSequences c u ++ [i.sequence] ∧
      (j.sequence :: pastSequences c u ++ [i.sequence]).IsChain Near := by
  obtain ⟨⟨p, rfl⟩, hj, hu, hch⟩ := h
  have hp : pastSequences c (u ++ [(i, .bounded)]) = pastSequences c u ++ [i.sequence] := by
    simp [pastSequences, hic]
  have hch' : (j.sequence :: pastSequences c u ++ [i.sequence]).IsChain Near := by
    rw [List.isChain_append]
    refine ⟨hch, List.isChain_singleton _, ?_⟩
    intro x hx y hy
    rw [hl] at hx
    cases hx
    cases hy
    exact ⟨hn.2, hn.1⟩
  exact ⟨⟨⟨p, by simp⟩, hj, refused_snoc hu fun _ => .inr rfl, by rw [hp]; exact hch'⟩, hp, hch'⟩

/-- A run starts with the datagram, or continues the one its anchor remembers. -/
theorem since_cases (e : SeqAnchor) (i : SeqCall) :
    since e i = i.nowNs ∨ ∃ latest, e.bounded = some (since e i, latest) ∧ Near i.sequence latest := by
  unfold since
  split
  · rename_i start latest hb
    split
    · rename_i hn
      exact .inr ⟨latest, hb, (near_iff _ _).mp hn⟩
    · exact .inl rfl
  · exact .inl rfl

/-- Every call keeps the runs it remembers in the trace. -/
theorem runsKept_step {done : List (SeqCall × SeqCheck)} {t : SeqTracker} (ht : t.bounded = true)
    (hk : RunsKept done t) (i : SeqCall) :
    RunsKept (done ++ [(i, (seqMachine.step t i).2)]) (seqMachine.step t i).1 := by
  intro c e' start latest he' hb'
  obtain ⟨hc, -, hother⟩ := checked ht i
  by_cases hic : c = i.channel
  · subst hic
    rw [he'] at hc
    generalize (seqMachine.step t i).2 = v at hc
    cases hc with
    | first h => cases hb'
    | reset e h hr => cases hb'
    | ok e h hr hs hb => cases hb'
    | reseat e h hr hb hn => cases hb'
    | stale _ h hr hs =>
      obtain ⟨j, u, hrun, hstart, hlast⟩ := hk _ e' start latest h hb'
      have hskip := hrun.skip (i := i) (v := .stale) fun _ => rfl
      exact ⟨j, _, hskip.1, hstart, by rw [hskip.2]; exact hlast⟩
    | bounded e h hr hb hn =>
      simp only [Option.some.injEq, Prod.mk.injEq] at hb'
      obtain ⟨rfl, rfl⟩ := hb'
      rcases since_cases e i with hnew | ⟨latest, hcont, hnear⟩
      · exact ⟨i, [], ⟨⟨done, rfl⟩, rfl, fun x hx => (List.not_mem_nil hx).elim, List.isChain_singleton _⟩,
          hnew.symm, rfl⟩
      · obtain ⟨j, u, hrun, hstart, hlast⟩ := hk _ e _ latest h hcont
        have hext := hrun.extend hlast rfl hnear
        exact ⟨j, _, hext.1, hstart, by rw [hext.2.1, ← List.cons_append, List.getLast?_concat]⟩
  · rw [hother c hic] at he'
    obtain ⟨j, u, hrun, hstart, hlast⟩ := hk c e' start latest he' hb'
    have hskip := hrun.skip (i := i) (v := (seqMachine.step t i).2) fun h => (hic h.symm).elim
    exact ⟨j, _, hskip.1, hstart, by rw [hskip.2]; exact hlast⟩

/-- The runs the anchors remember are in the trace after every run. -/
theorem runs_kept (is : List SeqCall) : RunsKept (seqMachine.trace newBounded is) (seqMachine.exec newBounded is) :=
  (Machine.history_rule (m := seqMachine) (P := fun done t => RunsKept done t ∧ t.bounded = true)
    ⟨fun _ _ _ _ h _ => (Option.some_ne_none _ h.symm).elim, rfl⟩
    (fun _ _ i h => ⟨runsKept_step h.2 h.1 i, (checked h.2 i).2.1⟩) is).1

/-- A re-seat ends a run of the trace that has lasted `SEQ_RESEAT_NS`. -/
theorem reseat_run {done : List (SeqCall × SeqCheck)} {t : SeqTracker} (ht : t.bounded = true)
    (hk : RunsKept done t) (i : SeqCall) (hv : (seqMachine.step t i).2 = .reseat) : ReseatRun done i := by
  have hc := (checked ht i).1
  rw [hv] at hc
  generalize (seqMachine.step t i).1.last.get i.channel = a at hc
  have hpos : 0 < SEQ_RESEAT_NS := by decide
  cases hc with
  | reseat e h hr hb hn =>
    rcases since_cases e i with hnew | ⟨latest, hcont, hnear⟩
    · omega
    · obtain ⟨j, u, hrun, hstart, hlast⟩ := hk _ e _ latest h hcont
      exact ⟨j, u, hrun, by omega, (hrun.extend hlast rfl hnear).2.2⟩

/-! ## Forged headers on a live channel -/

/-- A header and whether the channel's own publisher sent it. -/
abbrev Tagged := Bool × SeqCall

/-- The tracker reads no tag. -/
def tagged : Machine SeqTracker Tagged SeqCheck := ⟨fun t i => seqMachine.step t i.2⟩

/-- One datagram of an honest stream and the next. -/
structure Follows (a b : SeqCall) : Prop where
  channel : b.channel = a.channel
  resetCount : b.resetCount = a.resetCount
  rises : a.sequence ≤ b.sequence
  advance : b.sequence ≤ a.sequence + MAX_SEQ_ADVANCE
  soon : b.nowNs < a.nowNs + SEQ_RESEAT_NS

/-- A forged header of the stream's own channel is of its era and outside the bound. -/
def ForgedOut (c : Nat) (t : SeqTracker) (i : Tagged) : Prop :=
  i.1 = false → i.2.channel = c → Below t i.2 ∨ PastBound t i.2

/-- The anchor of a channel sits on the last honest datagram, and any run past the bound is younger. -/
structure Anchored (t : SeqTracker) (h : SeqCall) : Prop where
  bounded : t.bounded = true
  anchor : ∃ e, t.last.get h.channel = some e ∧ e.resetCount = h.resetCount ∧ e.sequence = h.sequence ∧
    ∀ start latest, e.bounded = some (start, latest) → h.nowNs ≤ start

theorem anchored_seat {t : SeqTracker} (ht : t.bounded = true) (i : SeqCall)
    (hs : (seqMachine.step t i).2 ≠ .stale) (hb : (seqMachine.step t i).2 ≠ .bounded) :
    Anchored (seqMachine.step t i).1 i := by
  obtain ⟨hc, hbd, -⟩ := checked ht i
  refine ⟨hbd, ?_⟩
  generalize (seqMachine.step t i).2 = v, (seqMachine.step t i).1.last.get i.channel = a at hc hs hb ⊢
  cases hc <;> simp_all [seated]

theorem anchored_honest {t : SeqTracker} {h i : SeqCall} (ha : Anchored t h) (hf : Follows h i) :
    (seqMachine.step t i).2 = .ok ∧ Anchored (seqMachine.step t i).1 i := by
  have hok : (seqMachine.step t i).2 = .ok := by
    have hc := (checked ha.bounded i).1
    obtain ⟨e, he, hr, hs, -⟩ := ha.anchor
    have hadv := hf.advance
    have hrise := hf.rises
    rw [← hf.channel] at he
    rw [← hf.resetCount] at hr
    generalize (seqMachine.step t i).2 = v, (seqMachine.step t i).1.last.get i.channel = a at hc
    cases hc <;> simp_all <;> omega
  exact ⟨hok, anchored_seat ha.bounded i (by simp [hok]) (by simp [hok])⟩

/-- A forged header outside the bound cannot move the anchor before an honest datagram was due. -/
theorem anchored_forged {t : SeqTracker} {h i : SeqCall} (ha : Anchored t h)
    (hi : ForgedOut h.channel t (false, i)) (hle : h.nowNs ≤ i.nowNs) (hlt : i.nowNs < h.nowNs + SEQ_RESEAT_NS) :
    Anchored (seqMachine.step t i).1 h := by
  obtain ⟨hc, hbd, hother⟩ := checked ha.bounded i
  obtain ⟨e, he, hr, hs, hrun⟩ := ha.anchor
  refine ⟨hbd, ?_⟩
  by_cases hch : h.channel = i.channel
  · rw [hch] at he ⊢
    have hsince : h.nowNs ≤ since e i := by
      rcases since_cases e i with hnew | ⟨latest, hcont, -⟩
      · omega
      · exact hrun _ _ hcont
    have hout : i.resetCount = e.resetCount ∧
        (i.sequence < e.sequence ∨ e.sequence + MAX_SEQ_ADVANCE < i.sequence) := by
      rcases hi rfl hch.symm with ⟨e', he', hr', hs'⟩ | ⟨e', he', hr', hs'⟩
      · cases he.symm.trans he'
        exact ⟨hr', .inl hs'⟩
      · cases he.symm.trans he'
        exact ⟨hr', .inr hs'⟩
    generalize (seqMachine.step t i).2 = v, (seqMachine.step t i).1.last.get i.channel = a at hc
    cases hc with
    | first h' => simp_all
    | reset e' h' hr' => simp_all
    | stale e' h' => exact ⟨e', rfl, by simp_all⟩
    | ok e' h' =>
      cases he.symm.trans h'
      omega
    | reseat e' h' =>
      cases he.symm.trans h'
      omega
    | bounded e' h' =>
      cases he.symm.trans h'
      refine ⟨_, rfl, hr, hs, ?_⟩
      intro start latest hb
      simp only [Option.some.injEq, Prod.mk.injEq] at hb
      omega
  · exact ⟨e, by rw [hother _ hch, he], hr, hs, hrun⟩

/-- The honest datagrams of a run are answered `ok`, whatever stands between them outside the bound. -/
theorem honest_ok :
    ∀ (mixed : List Tagged) (h : SeqCall) (t : SeqTracker), Anchored t h →
      (h :: mixed.map Prod.snd).Pairwise (fun a b => a.nowNs ≤ b.nowNs) →
      (h :: (mixed.filter Prod.fst).map Prod.snd).IsChain Follows →
      tagged.Along (ForgedOut h.channel) t mixed →
      (tagged.trace t mixed).filter (fun x => x.1.1) = (mixed.filter Prod.fst).map fun i => (i, .ok)
  | [], _, _, _, _, _, _ => rfl
  | (true, i) :: mixed, h, t, ha, hnow, hchain, hforged => by
    simp only [List.filter_cons_of_pos, List.map_cons, List.isChain_cons_cons] at hchain
    obtain ⟨hf, hchain⟩ := hchain
    obtain ⟨hok, ha'⟩ := anchored_honest ha hf
    have ih := honest_ok mixed i _ ha' hnow.tail hchain (by rw [hf.channel]; exact hforged.2)
    have hstep : tagged.step t (true, i) = ((seqMachine.step t i).1, .ok) := by rw [← hok]; rfl
    rw [Machine.trace_cons, hstep]
    simpa using ih
  | (false, i) :: mixed, h, t, ha, hnow, hchain, hforged => by
    rw [Machine.trace_cons]
    simp only [List.filter_cons_of_neg, Bool.false_eq_true, not_false_eq_true] at hchain ⊢
    have hlater : (h :: mixed.map Prod.snd).Pairwise (fun a b => a.nowNs ≤ b.nowNs) :=
      hnow.sublist (by simp)
    rcases hmore : mixed.filter Prod.fst with - | ⟨n, more⟩
    · -- No honest datagram is left to be answered.
      have hnone : ∀ x ∈ tagged.trace (tagged.step t (false, i)).1 mixed, ¬ x.1.1 = true := by
        intro x hx hx'
        exact List.filter_eq_nil_iff.mp hmore x.1 (Machine.mem_of_mem_trace _ hx) hx'
      rw [List.filter_eq_nil_iff.mpr hnone]
      rfl
    · rw [← hmore]
      have hn : n ∈ mixed := List.mem_of_mem_filter (hmore ▸ List.mem_cons_self)
      have hf : Follows h n.2 := by
        rw [hmore] at hchain
        exact (List.isChain_cons_cons.mp hchain).1
      have hle : h.nowNs ≤ i.nowNs := List.rel_of_pairwise_cons hnow List.mem_cons_self
      have hle' : i.nowNs ≤ n.2.nowNs := List.rel_of_pairwise_cons hnow.tail (List.mem_map_of_mem hn)
      have ha' := anchored_forged ha hforged.1 hle (Nat.lt_of_le_of_lt hle' hf.soon)
      exact honest_ok mixed h _ ha' hlater hchain hforged.2

/-- **Two runs.** Once an honest stream is seated, forged headers outside the bound leave all its verdicts alone. -/
theorem honest_verdicts {t : SeqTracker} (ht : t.bounded = true) (first : SeqCall) (mixed : List Tagged)
    (hs : (seqMachine.step t first).2 ≠ .stale) (hb : (seqMachine.step t first).2 ≠ .bounded)
    (hnow : (first :: mixed.map Prod.snd).Pairwise fun a b => a.nowNs ≤ b.nowNs)
    (hchain : (first :: (mixed.filter Prod.fst).map Prod.snd).IsChain Follows)
    (hforged : tagged.Along (ForgedOut first.channel) (seqMachine.step t first).1 mixed) :
    (tagged.trace t ((true, first) :: mixed)).filter (fun x => x.1.1) =
      tagged.trace t ((true, first) :: mixed.filter Prod.fst) := by
  have ha := anchored_seat ht first hs hb
  have hforged' : tagged.Along (ForgedOut first.channel) (seqMachine.step t first).1 (mixed.filter Prod.fst) := by
    refine (Machine.along_of_forall (p := fun i : Tagged => i.1 = true) _ _ ?_).mono ?_
    · intro i hi
      exact (List.mem_filter.mp hi).2
    · intro _ i hi hf
      rw [hi] at hf
      cases hf
  have hnow' : (first :: (mixed.filter Prod.fst).map Prod.snd).Pairwise fun a b => a.nowNs ≤ b.nowNs :=
    hnow.sublist ((List.filter_sublist.map _).cons_cons _)
  have hmixed := honest_ok mixed first _ ha hnow hchain hforged
  have halone := honest_ok (mixed.filter Prod.fst) first _ ha hnow' (by simpa using hchain) hforged'
  simp only [List.filter_filter, Bool.and_self] at halone
  have hall : (tagged.trace (seqMachine.step t first).1 (mixed.filter Prod.fst)).filter (fun x => x.1.1) =
      tagged.trace (seqMachine.step t first).1 (mixed.filter Prod.fst) := by
    rw [List.filter_eq_self]
    intro x hx
    exact (List.mem_filter.mp (Machine.mem_of_mem_trace _ hx)).2
  rw [hall] at halone
  rw [Machine.trace_cons, Machine.trace_cons]
  change ((_ :: tagged.trace (seqMachine.step t first).1 mixed).filter fun x : Tagged × SeqCheck => x.1.1) =
    _ :: tagged.trace (seqMachine.step t first).1 (mixed.filter Prod.fst)
  rw [halone, ← hmixed]
  rfl

/-! ## Channels -/

/-- Two trackers that hold the same of a channel. -/
def Alike (c : Nat) (t t' : SeqTracker) : Prop := t.bounded = t'.bounded ∧ t.last.get c = t'.last.get c

theorem step_bounded (t : SeqTracker) (i : SeqCall) : (seqMachine.step t i).1.bounded = t.bounded := by
  rw [step_eq]
  cases t.last.get i.channel with
  | none => rfl
  | some e =>
    simp only
    split_ifs <;> rfl

theorem step_other (t : SeqTracker) (i : SeqCall) {c : Nat} (hc : i.channel ≠ c) :
    (seqMachine.step t i).1.last.get c = t.last.get c := by
  rw [step_eq]
  cases t.last.get i.channel with
  | none => simp [FinMap.get_insert, hc.symm]
  | some e =>
    simp only
    split_ifs <;> simp [FinMap.get_insert, hc.symm]

/-- A call reads nothing but its channel's anchor. -/
theorem step_alike {t t' : SeqTracker} {i : SeqCall} {c : Nat} (hc : i.channel = c) (h : Alike c t t') :
    Alike c (seqMachine.step t i).1 (seqMachine.step t' i).1 ∧ (seqMachine.step t i).2 = (seqMachine.step t' i).2 := by
  subst hc
  obtain ⟨hb, hl⟩ := h
  rw [step_eq, step_eq, hl, hb]
  cases hl' : t'.last.get i.channel with
  | none => simp [Alike]
  | some e =>
    simp only
    split_ifs <;> simp [Alike, hb, hl, hl']

/-- What a channel is answered depends on its own calls only. -/
theorem channel_alone (c : Nat) (is : List SeqCall) (t : SeqTracker) :
    (seqMachine.trace t is).filter (fun x => decide (x.1.channel = c)) =
        seqMachine.trace t (is.filter fun i => decide (i.channel = c)) ∧
      (seqMachine.exec t is).last.get c =
        (seqMachine.exec t (is.filter fun i => decide (i.channel = c))).last.get c := by
  have hhidden : ∀ t t' i, decide (SeqCall.channel i = c) = false → Alike c t t' →
      Alike c (seqMachine.step t i).1 t' := by
    intro t t' i hi h
    exact ⟨(step_bounded t i).trans h.1, (step_other t i (by simpa using hi)).trans h.2⟩
  have hshown : ∀ t t' i, decide (SeqCall.channel i = c) = true → Alike c t t' →
      Alike c (seqMachine.step t i).1 (seqMachine.step t' i).1 ∧ (seqMachine.step t i).2 = (seqMachine.step t' i).2 := by
    intro t t' i hi h
    exact step_alike (by simpa using hi) h
  have h := Machine.unwinding_rule hhidden hshown is t t ⟨rfl, rfl⟩
  exact ⟨h.1, h.2.2⟩

/-! ## The tracker -/

/-- **The bounded tracker.** In every run: a channel's anchor never falls within an era; a header is stale exactly below
it and refused or re-seated exactly past the bound; only a re-seat moves it further, and only after a run of datagrams
past the bound that lasted `SEQ_RESEAT_NS`.  On a seated honest stream, headers outside the bound change no verdict.
Channels do not meet. -/
theorem boundedSeq :
    (∀ (c : Nat) (before during : List SeqCall) (e : SeqAnchor),
      (seqMachine.exec newBounded before).last.get c = some e →
      (∀ i ∈ during, i.channel = c → i.resetCount = e.resetCount) →
      ∃ e', (seqMachine.exec newBounded (before ++ during)).last.get c = some e' ∧
        e'.resetCount = e.resetCount ∧ e.sequence ≤ e'.sequence) ∧
    (∀ (before : List SeqCall) (i : SeqCall),
      let t := seqMachine.exec newBounded before
      ((seqMachine.step t i).2 = .stale ↔ Below t i) ∧
      ((seqMachine.step t i).2 = .bounded ∨ (seqMachine.step t i).2 = .reseat ↔ PastBound t i) ∧
      (∀ e e', t.last.get i.channel = some e → (seqMachine.step t i).1.last.get i.channel = some e' →
        e'.resetCount = e.resetCount → e.sequence + MAX_SEQ_ADVANCE < e'.sequence →
        (seqMachine.step t i).2 = .reseat) ∧
      ((seqMachine.step t i).2 = .reseat → ReseatRun (seqMachine.trace newBounded before) i)) ∧
    (∀ (before : List SeqCall) (first : SeqCall) (mixed : List Tagged),
      let t := seqMachine.exec newBounded before
      (seqMachine.step t first).2 ≠ .stale → (seqMachine.step t first).2 ≠ .bounded →
      (first :: mixed.map Prod.snd).Pairwise (fun a b => a.nowNs ≤ b.nowNs) →
      (first :: (mixed.filter Prod.fst).map Prod.snd).IsChain Follows →
      tagged.Along (ForgedOut first.channel) (seqMachine.step t first).1 mixed →
      (tagged.trace t ((true, first) :: mixed)).filter (fun x => x.1.1) =
        tagged.trace t ((true, first) :: mixed.filter Prod.fst)) ∧
    (∀ (c : Nat) (is : List SeqCall),
      (seqMachine.trace newBounded is).filter (fun x => decide (x.1.channel = c)) =
        seqMachine.trace newBounded (is.filter fun i => decide (i.channel = c))) := by
  refine ⟨?_, ?_, ?_, ?_⟩
  · intro c before during e he hera
    rw [Machine.exec_append]
    exact anchor_run c during _ e (bounded_exec rfl before) he hera
  · intro before i t
    have ht : t.bounded = true := bounded_exec rfl before
    refine ⟨stale_iff ht i, pastBound_iff ht i, ?_, ?_⟩
    · intro e e' he he' hr hs
      exact jump_reseat ht i he he' hr hs
    · intro hv
      exact reseat_run ht (runs_kept before) i hv
  · intro before first mixed t hs hb hnow hchain hforged
    exact honest_verdicts (bounded_exec rfl before) first mixed hs hb hnow hchain hforged
  · intro c is
    exact (channel_alone c is newBounded).1

/-- A stream at 100 keeps its verdicts with one header far ahead and one below its anchor put in. -/
theorem boundedSeq_forged :
    (tagged.trace newBounded
        [(true, ⟨0, 1, 100, 10⟩), (false, ⟨0, 1, 9000, 20⟩), (true, ⟨0, 1, 101, 30⟩), (false, ⟨0, 1, 7, 40⟩)]).filter
        (fun x => x.1.1) =
      tagged.trace newBounded [(true, ⟨0, 1, 100, 10⟩), (true, ⟨0, 1, 101, 30⟩)] := by
  refine boundedSeq.2.2.1 [] ⟨0, 1, 100, 10⟩
    [(false, ⟨0, 1, 9000, 20⟩), (true, ⟨0, 1, 101, 30⟩), (false, ⟨0, 1, 7, 40⟩)] (by decide) (by decide) (by decide)
    ?_ ?_
  · exact List.isChain_pair.mpr ⟨rfl, rfl, by decide, by decide, by decide⟩
  · refine ⟨fun _ _ => .inr ⟨⟨1, 100, none⟩, rfl, rfl, by decide⟩, fun h => ?_, fun _ _ => .inl ?_, trivial⟩
    · cases h
    · exact ⟨⟨1, 101, none⟩, rfl, rfl, by decide⟩

end SeqTracker

end EdgeConnect.Ingest
