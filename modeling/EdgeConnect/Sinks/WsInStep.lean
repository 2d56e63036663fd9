import EdgeConnect.Sinks.WsSeat

/-!
# Keeping one client in step with one market

The replay entry of a market has folded every batch the client has still to read.  A client that is not
withheld is *in step*: fed the frames its watermark leaves it, it holds the entry's book.

* `Backlog` — the entry against the frames still to be read;
* `InStep` — a client's book, its seat and those frames;
* `InStep.publish`, `InStep.replayed`, `InStep.released`, `InStep.forwarded` — every operation keeps it.
-/

set_option autoImplicit false

namespace EdgeConnect.Ws

open EventBook

/-- The batches of some frames. -/
def batches (q : List PreparedFrame) : List NormalizedBook := q.filterMap fun f => f.payload.batch

theorem batches_append (q q' : List PreparedFrame) : batches (q ++ q') = batches q ++ batches q' :=
  List.filterMap_append

theorem batches_cons (f : PreparedFrame) (q : List PreparedFrame) :
    batches (f :: q) = f.payload.batch.toList ++ batches q := by
  unfold batches
  rw [List.filterMap_cons]
  cases f.payload.batch <;> rfl

/-! ## The entry and its frames -/

/-- The replay entry of a market, the frames of it still to be read, and the newest stamp broadcast. -/
structure Backlog (entry : Option BookAccumulator) (q : List PreparedFrame) (newest : Nat) : Prop where
  absent : entry = none → q = []
  valid : ∀ r, entry = some r → r.Valid ∧ r.Tagged
  folded : ∀ r, entry = some r → ∃ e₀ : EventBook, r.core = e₀.feedAll (batches q)
  stamped : ∀ r, entry = some r → r.wireTsNs ≤ newest ∧ r.pendingWireTsNs ≤ newest

variable {entry : Option BookAccumulator} {q : List PreparedFrame} {newest : Nat} {f : PreparedFrame}
  {b b' : NormalizedBook} {u : EventBook} {s : Seat}

/-- A batch as its frame carries it. -/
structure Carries (f : PreparedFrame) (b : NormalizedBook) : Prop where
  batch : ∃ b', f.payload.batch = some b' ∧ b'.changes = b.changes ∧ b'.last = b.last
  stamp : f.recvTsNs = b.recvTsNs

theorem Carries.batches (h : Carries f b) (e : EventBook) :
    e.feedAll (batches [f]) = e.feed b.changes b.last ∧
      e.feedAllFree (batches [f]) = e.feedFree b.changes b.last := by
  obtain ⟨b', hb, hc, hl⟩ := h.batch
  have hbatches : Ws.batches [f] = [b'] := by
    rw [batches_cons, hb]
    rfl
  rw [hbatches, ← hc, ← hl]
  exact ⟨rfl, rfl⟩

theorem stamps_apply (a : BookAccumulator) (b : NormalizedBook) (ha : a.wireTsNs ≤ newest)
    (hp : a.pendingWireTsNs ≤ newest) (hb : newest ≤ b.recvTsNs) :
    (a.apply b).wireTsNs ≤ b.recvTsNs ∧ (a.apply b).pendingWireTsNs ≤ b.recvTsNs := by
  have hmax : max a.pendingWireTsNs b.recvTsNs ≤ b.recvTsNs := max_le (hp.trans hb) le_rfl
  unfold BookAccumulator.apply
  simp only
  split
  · exact ⟨hmax, hmax⟩
  · split
    · exact ⟨ha.trans hb, ha.trans hb⟩
    · exact ⟨ha.trans hb, hmax⟩

theorem Backlog.publish (h : Backlog entry q newest) (hf : Carries f b) (hnew : newest ≤ b.recvTsNs) :
    Backlog (some ((entry.getD (.new b.symbol)).apply b)) (q ++ [f]) b.recvTsNs := by
  have hstart : (entry.getD (.new b.symbol)).Valid ∧ (entry.getD (.new b.symbol)).Tagged ∧
      (∃ e₀ : EventBook, (entry.getD (.new b.symbol)).core = e₀.feedAll (batches q)) ∧
      (entry.getD (.new b.symbol)).wireTsNs ≤ newest ∧
      (entry.getD (.new b.symbol)).pendingWireTsNs ≤ newest := by
    cases he : entry with
    | none =>
      rw [h.absent he]
      exact ⟨.new _, .new _, ⟨_, rfl⟩, Nat.zero_le _, Nat.zero_le _⟩
    | some r => exact ⟨(h.valid r he).1, (h.valid r he).2, h.folded r he, h.stamped r he⟩
  generalize entry.getD (.new b.symbol) = r at hstart
  obtain ⟨hv, ht, ⟨e₀, hcore⟩, hwire, hpend⟩ := hstart
  refine ⟨nofun, fun r' hr' => ?_, fun r' hr' => ?_, fun r' hr' => ?_⟩
  · cases hr'
    exact ⟨hv.apply b, ht.apply b⟩
  · cases hr'
    refine ⟨e₀, ?_⟩
    rw [batches_append, feedAll_append, ← hcore, (hf.batches _).1, BookAccumulator.core_apply]
  · cases hr'
    exact stamps_apply r b hwire hpend hnew

/-- A frame is read, or lost. -/
theorem Backlog.read (h : Backlog entry (f :: q) newest) : Backlog entry q newest := by
  refine ⟨fun he => ?_, h.valid, fun r hr => ?_, h.stamped⟩
  · cases h.absent he
  · obtain ⟨e₀, hcore⟩ := h.folded r hr
    refine ⟨e₀.feedAll f.payload.batch.toList, ?_⟩
    rw [hcore, batches_cons, feedAll_append]

/-! ## Clients in step -/

/-- The frames a watermark leaves its reader. -/
def Seat.live (s : Seat) (q : List PreparedFrame) : List PreparedFrame :=
  match s.watermark with
  | none => q
  | some (w, _) => q.dropWhile fun f => f.recvTsNs < w

theorem Seat.live_suffix (s : Seat) (q : List PreparedFrame) : ∃ pre, q = pre ++ s.live q := by
  unfold Seat.live
  split
  · exact ⟨[], rfl⟩
  · exact ⟨_, (List.takeWhile_append_dropWhile).symm⟩

/-- A client's book `u` of a market, against the market's entry and the frames still to be read. -/
structure InStep (u : EventBook) (entry : Option BookAccumulator) (q : List PreparedFrame) (s : Seat)
    (newest : Nat) : Prop where
  watermark : ∀ w since, s.watermark = some (w, since) → w ≤ newest
  absent : entry = none → u.pending = []
  tracks : ∀ r, entry = some r → s.awaiting = none → Tracks (u.feedAllFree (batches (s.live q))) r.core

theorem InStep.publish (h : InStep u entry q s newest) (hback : Backlog entry q newest) (hf : Carries f b)
    (hnew : newest ≤ b.recvTsNs) :
    InStep u (some ((entry.getD (.new b.symbol)).apply b)) (q ++ [f]) s b.recvTsNs := by
  have hlive : s.live (q ++ [f]) = s.live q ++ [f] := by
    unfold Seat.live
    split
    · rfl
    · rename_i w since hw
      have hkeep : ¬ f.recvTsNs < w := by
        rw [hf.stamp]
        exact Nat.not_lt.mpr ((h.watermark w since hw).trans hnew)
      rw [List.dropWhile_append]
      split
      · rename_i hnil
        rw [List.isEmpty_iff.mp hnil, List.dropWhile_cons_of_neg (by simpa using hkeep)]
        rfl
      · rfl
  refine ⟨fun w since hw => (h.watermark w since hw).trans hnew, nofun, fun r hr hs => ?_⟩
  cases hr
  rw [hlive, batches_append, feedAllFree_append, (hf.batches _).2, BookAccumulator.core_apply]
  refine Tracks.feedFree ?_ b.changes b.last
  cases he : entry with
  | none =>
    have hq : s.live q = [] := by
      obtain ⟨pre, hpre⟩ := s.live_suffix q
      rw [hback.absent he] at hpre
      have := List.append_eq_nil_iff.mp hpre.symm
      rw [hback.absent he]
      exact this.2
    rw [hq]
    exact Tracks.new (h.absent he) b.symbol
  | some r => exact h.tracks r he hs

/-- **A bootstrap puts its client in step**, whatever it held. -/
theorem inStep_bootstrapped {r : BookAccumulator} (hback : Backlog entry q newest) (hr : entry = some r)
    (hb : r.baselined = true) (hp : r.pending = []) (hw : ∀ w since, s.watermark = some (w, since) → w ≤ newest)
    (key : BookKey) (now wall : Nat) :
    InStep (u.feedAllFree [r.toBookScoped key (bookScope r) wall]) entry q (s.bootstrapped r now) newest := by
  obtain ⟨hv, ht⟩ := hback.valid r hr
  refine ⟨fun w since hw' => ?_, fun he => ?_, fun r' hr' _ => ?_⟩
  · unfold Seat.bootstrapped at hw'
    simp only at hw'
    split at hw'
    · cases hw'
      exact (hback.stamped r hr).1
    · exact hw w since hw'
  · rw [hr] at he
    cases he
  · obtain rfl : r = r' := Option.some.inj (hr.symm.trans hr')
    obtain ⟨e₀, hcore⟩ := hback.folded r hr
    obtain ⟨pre, hpre⟩ := (s.bootstrapped r now).live_suffix q
    have hsplit : r.core = (e₀.feedAll (batches pre)).feedAll (batches ((s.bootstrapped r now).live q)) := by
      rw [← feedAll_append, ← batches_append, ← hpre]
      exact hcore
    have hfed : u.feedAllFree [r.toBookScoped key (bookScope r) wall] = ⟨r.core.rests, [], true⟩ :=
      BookAccumulator.feedFree_toBookScoped hv ht key wall u
    rw [hfed, hsplit]
    refine resumes_tracks ?_ ?_ true
    · rw [← hsplit]
      exact hb
    · rw [← hsplit]
      exact hp

theorem inStep_withheld (hw : ∀ w since, s.watermark = some (w, since) → w ≤ newest)
    (hu : entry = none → u.pending = []) (hs : s.awaiting ≠ none) : InStep u entry q s newest :=
  ⟨hw, hu, fun _ _ h => absurd h hs⟩

theorem whole_of_not {r : BookAccumulator} (h : ¬ (!r.baselined || !r.pendingEmpty) = true) :
    r.baselined = true ∧ r.pending = [] := by
  simp only [Bool.or_eq_true, Bool.not_eq_true', not_or, Bool.not_eq_false] at h
  exact ⟨h.1, List.isEmpty_iff.mp h.2⟩

/-- **A replay in whose scope the market is puts its client in step.** -/
theorem inStep_replayed {subs : List SubFilter} {key : BookKey} (hback : Backlog entry q newest)
    (hw : ∀ w since, s.watermark = some (w, since) → w ≤ newest) (hu : entry = none → u.pending = [])
    (hscope : ∀ r, entry = some r → wanted subs key r = true) (now wall : Nat) :
    InStep (u.feedAllFree (s.replayed entry subs key now wall).2) entry q
      (s.replayed entry subs key now wall).1 newest := by
  unfold Seat.replayed
  cases he : entry with
  | none =>
    rw [he] at hu
    exact ⟨hw, hu, nofun⟩
  | some r =>
    rw [he] at hback
    simp only
    rw [if_neg (by rw [hscope r he]; exact Bool.false_ne_true)]
    split
    · exact inStep_withheld hw nofun nofun
    · rename_i hwhole
      obtain ⟨hb, hp⟩ := whole_of_not hwhole
      exact inStep_bootstrapped hback rfl hb hp hw key now wall

theorem InStep.replayed (h : InStep u entry q s newest) (hback : Backlog entry q newest)
    (subs : List SubFilter) (key : BookKey) (now wall : Nat) :
    InStep (u.feedAllFree (s.replayed entry subs key now wall).2) entry q
      (s.replayed entry subs key now wall).1 newest := by
  by_cases hscope : ∀ r, entry = some r → wanted subs key r = true
  · exact inStep_replayed hback h.watermark h.absent hscope now wall
  · simp only [not_forall] at hscope
    obtain ⟨r, hr, hout⟩ := hscope
    have hsame : s.replayed entry subs key now wall = (s, []) := by
      unfold Seat.replayed
      rw [hr]
      simp only
      rw [if_pos (by simpa using hout)]
    rw [hsame]
    exact h

/-- A release before its deadline keeps the client in step, and says whether it is withheld. -/
theorem InStep.released {subs : List SubFilter} {key : BookKey} {deadline now : Nat}
    (h : InStep u entry q s newest) (hback : Backlog entry q newest)
    (hscope : ∀ r, entry = some r → wanted subs key r = true)
    (htime : ∀ since, s.awaiting = some since → now - since < deadline) (wall : Nat) :
    InStep (u.feedAllFree (s.released entry subs key deadline now wall).2.1) entry q
        (s.released entry subs key deadline now wall).1 newest ∧
      (s.released entry subs key deadline now wall).1.awaiting.isSome =
        (s.released entry subs key deadline now wall).2.2 := by
  unfold Seat.released
  cases ha : s.awaiting with
  | none => exact ⟨h, by rw [ha]; rfl⟩
  | some since =>
    have hearly : decide (now - since ≥ deadline) = false :=
      decide_eq_false (Nat.not_le.mpr (htime since ha))
    cases he : entry with
    | none =>
      rw [he] at h
      exact ⟨h, by rw [ha]; rfl⟩
    | some r =>
      rw [he] at h hback
      simp only [hearly, Bool.or_false]
      rw [if_neg (by rw [hscope r he]; exact Bool.false_ne_true)]
      split
      · exact ⟨h, by rw [ha]; rfl⟩
      · rename_i hb
        split
        · rename_i hp
          exact ⟨inStep_bootstrapped hback rfl (by simpa using hb) (List.isEmpty_iff.mp hp) h.watermark key now
            wall, rfl⟩
        · exact ⟨h, by rw [ha]; rfl⟩

/-- A frame judged by its watermark. -/
theorem InStep.admitted {deadline now : Nat} (h : InStep u entry (f :: q) s newest)
    (hback : Backlog entry (f :: q) newest)
    (htime : ∀ w since, s.watermark = some (w, since) → now - since < deadline) :
    InStep (u.feedAllFree (if (s.admitted f deadline now).2 then f.payload.batch.toList else [])) entry q
      (s.admitted f deadline now).1 newest := by
  have hsome : ∀ r : Option BookAccumulator, entry = r → r ≠ none := by
    rintro r hr rfl
    cases hback.absent hr
  cases hw : s.watermark with
  | none =>
    have hadm : s.admitted f deadline now = (s, true) := by
      unfold Seat.admitted
      rw [hw]
    have hlive : ∀ q, s.live q = q := by
      intro q
      unfold Seat.live
      rw [hw]
    rw [hadm]
    refine ⟨h.watermark, fun he => absurd he (hsome _ rfl), fun r hr hs => ?_⟩
    have ht := h.tracks r hr hs
    rw [hlive, batches_cons, feedAllFree_append] at ht
    rw [hlive]
    exact ht
  | some v =>
    obtain ⟨w, since⟩ := v
    by_cases hold : f.recvTsNs < w ∧ now - since < deadline
    · have hadm : s.admitted f deadline now = (s, false) := by
        unfold Seat.admitted
        rw [hw]
        exact if_pos hold
      have hlive : s.live (f :: q) = s.live q := by
        unfold Seat.live
        rw [hw]
        exact List.dropWhile_cons_of_pos (by simpa using hold.1)
      rw [hadm]
      refine ⟨h.watermark, fun he => absurd he (hsome _ rfl), fun r hr hs => ?_⟩
      have ht := h.tracks r hr hs
      rw [hlive] at ht
      exact ht
    · have hadm : s.admitted f deadline now = ({ s with watermark := none }, true) := by
        unfold Seat.admitted
        rw [hw]
        exact if_neg hold
      have hlive : s.live (f :: q) = f :: q := by
        unfold Seat.live
        rw [hw]
        refine List.dropWhile_cons_of_neg ?_
        simp only [decide_eq_true_eq]
        exact fun hlt => hold ⟨hlt, htime w since hw⟩
      rw [hadm]
      refine ⟨nofun, fun he => absurd he (hsome _ rfl), fun r hr hs => ?_⟩
      have ht := h.tracks r hr hs
      rw [hlive, batches_cons, feedAllFree_append] at ht
      exact ht

/-- **A frame read keeps the client in step.** -/
theorem InStep.forwarded {subs : List SubFilter} {key : BookKey} {deadline now : Nat}
    (h : InStep u entry (f :: q) s newest) (hback : Backlog entry (f :: q) newest)
    (hscope : ∀ r, entry = some r → wanted subs key r = true) (hpass : passes subs f = true)
    (htime : ∀ since, s.awaiting = some since → now - since < deadline)
    (htime' : ∀ w since, s.watermark = some (w, since) → now - since < deadline) (wall : Nat) :
    InStep (u.feedAllFree (s.forwarded entry subs key deadline now wall f).2) entry q
      (s.forwarded entry subs key deadline now wall f).1 newest := by
  obtain ⟨hrel, hheld⟩ := h.released hback hscope htime wall
  have hfresh : ∀ w since, (s.released entry subs key deadline now wall).1.watermark = some (w, since) →
      now - since < deadline := by
    intro w since hw
    unfold Seat.released at hw
    cases ha : s.awaiting with
    | none =>
      rw [ha] at hw
      exact htime' w since hw
    | some started =>
      have hpos := htime started ha
      rw [ha] at hw
      simp only at hw
      split at hw
      · exact htime' w since hw
      · split at hw
        · exact htime' w since hw
        · split at hw
          · exact htime' w since hw
          · split at hw
            · simp only [Seat.bootstrapped] at hw
              split at hw
              · cases hw
                omega
              · exact htime' w since hw
            · exact htime' w since hw
  unfold Seat.forwarded
  generalize s.released entry subs key deadline now wall = r at hrel hheld hfresh
  obtain ⟨s', out, held⟩ := r
  cases held with
  | true =>
    refine inStep_withheld hrel.watermark (fun he => ?_) fun hs => ?_
    · cases hback.absent he
    · simp only at hheld hs
      rw [hs] at hheld
      cases hheld
  | false =>
    have hadm := hrel.admitted hback hfresh
    simp only at hadm ⊢
    generalize s'.admitted f deadline now = r at hadm
    obtain ⟨s'', go⟩ := r
    cases go with
    | false => exact hadm
    | true =>
      rw [if_pos rfl] at hadm
      simp only [hpass, if_true]
      rw [feedAllFree_append]
      exact hadm

end EdgeConnect.Ws
