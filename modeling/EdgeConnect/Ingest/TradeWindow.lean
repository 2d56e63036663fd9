import EdgeConnect.Ingest.Floor
import EdgeConnect.Lib.Recent

/-!
# The trade window (`WindowedDedup` in `src/ingest/arbiter.rs`)

Executable model of the per-key memory of the identities seen last: one key's window is `DedupSeen`, and `WindowedDedup`
keeps one window per key.

* `dedup_run` — the window of a key is a machine of its own, run on that key's own copies;
* `Retains` — what ties a key's history to its window;
* `trade_window` — a first copy goes out, a repeated one only past `capacity` others, and what does not go out is a
  contest exactly when it comes from another publisher than the copy kept.
-/

set_option autoImplicit false

namespace EdgeConnect.Arbiter

/-! ## The model -/

/-- One key's window: each value with the publisher and the arrival of its first copy, and the values in order. -/
structure DedupSeen (V P : Type*) where
  seen : FinMap V (P × Nat)
  order : List V

structure WindowedDedup (K V P : Type*) where
  capacity : Nat
  seen : FinMap K (DedupSeen V P)

/-- One copy offered to a window. -/
structure Copy (V P : Type*) where
  value : V
  publisher : P
  arrivalNs : Nat
  deriving DecidableEq, Repr

variable {K V P : Type*} [DecidableEq K] [DecidableEq V] [DecidableEq P]

namespace DedupSeen

def default : DedupSeen V P := ⟨∅, []⟩

/-- A value is recorded; past the capacity the oldest one goes. -/
def record (capacity : Nat) (w : DedupSeen V P) (c : Copy V P) : DedupSeen V P :=
  let seen := w.seen.insert c.value (c.publisher, c.arrivalNs)
  let order := w.order ++ [c.value]
  if order.length > capacity then
    match order with
    | [] => ⟨seen, []⟩
    | old :: rest => ⟨seen.erase old, rest⟩
  else ⟨seen, order⟩

def admitCopy (capacity : Nat) (w : DedupSeen V P) (c : Copy V P) : DedupSeen V P × Admit P :=
  match w.seen.get c.value with
  | some (winner, winnerArrivalNs) =>
    (w, if winner = c.publisher then .dropped else .contest winner (c.arrivalNs - winnerArrivalNs))
  | none => (w.record capacity c, .emitted true)

end DedupSeen

namespace WindowedDedup

def new (capacity : Nat) : WindowedDedup K V P := ⟨capacity, ∅⟩

/-- The window of a key. -/
def window (d : WindowedDedup K V P) (key : K) : DedupSeen V P := (d.seen.get key).getD .default

def admitCopy (d : WindowedDedup K V P) (key : K) (c : Copy V P) : WindowedDedup K V P × Admit P :=
  let (w, a) := (d.window key).admitCopy d.capacity c
  ({ d with seen := d.seen.insert key w }, a)

/-- The dedup as a machine over its calls. -/
def machine : Machine (WindowedDedup K V P) (K × Copy V P) (Admit P) := ⟨fun d c => d.admitCopy c.1 c.2⟩

end WindowedDedup

/-! ## One key -/

/-- The per-key machine. -/
def keyWindow (capacity : Nat) : Machine (DedupSeen V P) (Copy V P) (Admit P) := ⟨DedupSeen.admitCopy capacity⟩

/-- The copies that a run offers for one key. -/
def copiesFor (key : K) (calls : List (K × Copy V P)) : List (Copy V P) :=
  calls.filterMap fun c => if c.1 = key then some c.2 else none

/-- The decisions of a run for one key. -/
def admitsFor (key : K) (t : List ((K × Copy V P) × Admit P)) : List (Copy V P × Admit P) :=
  t.filterMap fun e => if e.1.1 = key then some (e.1.2, e.2) else none

/-- **The window is one machine per key**: a key's decisions, and what it keeps, are those of its own copies. -/
theorem dedup_run (key : K) : ∀ (calls : List (K × Copy V P)) (d : WindowedDedup K V P),
    admitsFor key (WindowedDedup.machine.trace d calls) =
        (keyWindow d.capacity).trace (d.window key) (copiesFor key calls) ∧
      (WindowedDedup.machine.exec d calls).window key =
        (keyWindow d.capacity).exec (d.window key) (copiesFor key calls)
  | [], _ => ⟨rfl, rfl⟩
  | (k, c) :: calls, d => by
    obtain ⟨htrace, hexec⟩ := dedup_run key calls (d.admitCopy k c).1
    have hcap : (d.admitCopy k c).1.capacity = d.capacity := rfl
    rw [hcap] at htrace hexec
    rw [Machine.trace_cons, Machine.exec_cons]
    show admitsFor key (((k, c), (d.admitCopy k c).2) :: WindowedDedup.machine.trace (d.admitCopy k c).1 calls) = _ ∧
      (WindowedDedup.machine.exec (d.admitCopy k c).1 calls).window key = _
    unfold admitsFor copiesFor at *
    rw [List.filterMap_cons, List.filterMap_cons, hexec]
    by_cases hk : k = key
    · subst hk
      have hwindow : (d.admitCopy k c).1.window k = ((d.window k).admitCopy d.capacity c).1 := by
        unfold WindowedDedup.window WindowedDedup.admitCopy
        simp only
        rw [FinMap.get_insert_self]
        rfl
      simp only [if_true]
      rw [htrace, hwindow]
      exact ⟨rfl, rfl⟩
    · have hwindow : (d.admitCopy k c).1.window key = d.window key := by
        unfold WindowedDedup.window WindowedDedup.admitCopy
        simp only
        rw [FinMap.get_insert_of_ne _ _ (fun h => hk h.symm)]
      simp only [hk, if_false]
      rw [htrace, hwindow]
      exact ⟨rfl, rfl⟩

/-! ## The history of one key -/

/-- The values of a history that went out. -/
def emitted (t : List (Copy V P × Admit P)) : List V := (t.filter fun e => e.2.isEmitted).map fun e => e.1.value

omit [DecidableEq V] [DecidableEq P] in
theorem emitted_append (t u : List (Copy V P × Admit P)) : emitted (t ++ u) = emitted t ++ emitted u := by
  unfold emitted
  rw [List.filter_append, List.map_append]

/-- What a window keeps of its history: the values that went out last, each with the copy that did. -/
structure Retains (capacity : Nat) (t : List (Copy V P × Admit P)) (w : DedupSeen V P) : Prop where
  order : w.order = (emitted t).rtake capacity
  fresh : Recent.Fresh capacity (emitted t)
  keys : ∀ v, v ∈ w.order ↔ (w.seen.get v).isSome = true
  copies : ∀ v p at', w.seen.get v = some (p, at') →
    ∃ u r, t = u ++ (⟨v, p, at'⟩, .emitted true) :: r ∧ v ∉ emitted r

variable {capacity : Nat} {t : List (Copy V P × Admit P)} {w : DedupSeen V P}

omit [DecidableEq V] [DecidableEq P] in
theorem Retains.nil : Retains capacity ([] : List (Copy V P × Admit P)) .default where
  order := by simp [emitted, DedupSeen.default]
  fresh := Recent.Fresh.nil
  keys v := by simp [DedupSeen.default]
  copies v p at' h := by cases h

omit [DecidableEq P] in
/-- What `record` leaves: the values that went out last, and the copies of what is kept. -/
theorem record_spec (h : Retains capacity t w) {c : Copy V P} (hnew : w.seen.get c.value = none) :
    (w.record capacity c).order = (emitted t ++ [c.value]).rtake capacity ∧
      ∀ v, (w.record capacity c).seen.get v =
        if v ∈ (w.record capacity c).order then
          if v = c.value then some (c.publisher, c.arrivalNs) else w.seen.get v
        else none := by
  have hout : c.value ∉ w.order := fun hmem => by simpa [hnew] using (h.keys c.value).mp hmem
  have hnodup : (w.order ++ [c.value]).Nodup :=
    List.nodup_append'.mpr ⟨h.order ▸ h.fresh.nodup, List.nodup_singleton _, List.disjoint_singleton.mpr hout⟩
  have hseen : ∀ v, (w.seen.insert c.value (c.publisher, c.arrivalNs)).get v =
      if v ∈ w.order ++ [c.value] then if v = c.value then some (c.publisher, c.arrivalNs) else w.seen.get v else none := by
    intro v
    rw [FinMap.get_insert]
    by_cases hv : v = c.value
    · simp [hv]
    · have hkey := h.keys v
      cases hget : w.seen.get v <;> simp [hv, hkey, hget]
  have hlen : w.order.length ≤ capacity := by
    rw [h.order]
    exact Recent.length_rtake_le
  rw [← Recent.rtake_note, ← h.order]
  unfold DedupSeen.record
  simp only
  split
  · rename_i hlong
    split
    · rename_i heq
      simp at heq
    · rename_i old rest heq
      have hrest : (w.order ++ [c.value]).rtake capacity = rest := by
        unfold List.rtake
        rw [List.length_append, List.length_singleton] at hlong ⊢
        rw [show w.order.length + 1 - capacity = 1 by omega, heq]
        rfl
      rw [hrest]
      refine ⟨rfl, fun v => ?_⟩
      rw [heq] at hnodup hseen
      rw [FinMap.get_erase, hseen]
      have hold := (List.nodup_cons.mp hnodup).1
      by_cases hv : v = old
      · rw [if_pos hv, if_neg (hv ▸ hold)]
      · simp [hv]
  · rename_i hshort
    exact ⟨(Recent.rtake_of_le (Nat.not_lt.mp hshort)).symm, hseen⟩

omit [DecidableEq V] [DecidableEq P] in
theorem emitted_sent (t : List (Copy V P × Admit P)) (c : Copy V P) :
    emitted (t ++ [(c, .emitted true)]) = emitted t ++ [c.value] := by
  rw [emitted_append]
  rfl

omit [DecidableEq P] in
theorem Retains.recorded (h : Retains capacity t w) {c : Copy V P} (hnew : w.seen.get c.value = none) :
    Retains capacity (t ++ [(c, .emitted true)]) (w.record capacity c) := by
  obtain ⟨horder, hget⟩ := record_spec h hnew
  have hout : c.value ∉ (emitted t).rtake capacity := by
    rw [← h.order, h.keys]
    simp [hnew]
  refine ⟨?_, ?_, fun v => ?_, fun v p at' hv => ?_⟩
  · rw [horder, emitted_sent]
  · rw [emitted_sent]
    exact h.fresh.note hout
  · rw [hget]
    by_cases hv : v ∈ (w.record capacity c).order
    · -- what is kept of the history was kept before, or is the new value
      have hmem : v ∈ w.order ∨ v = c.value := by
        rw [horder, ← Recent.rtake_note, ← h.order] at hv
        simpa using Recent.mem_of_mem_rtake hv
      rcases hmem with hmem | rfl
      · have hsome := (h.keys v).mp hmem
        by_cases hc : v = c.value <;> simp [hv, hc, hsome]
      · simp [hv]
    · simp [hv]
  · rw [hget] at hv
    split at hv
    · split at hv
      · rename_i hc
        cases hv
        exact ⟨t, [], by rw [hc], List.not_mem_nil⟩
      · rename_i hc
        obtain ⟨u, r, rfl, hr⟩ := h.copies v p at' hv
        refine ⟨u, r ++ [(c, .emitted true)], by simp, ?_⟩
        rw [emitted_sent, List.mem_append, List.mem_singleton]
        rintro (hmem | rfl)
        · exact hr hmem
        · exact hc rfl
    · cases hv

omit [DecidableEq V] [DecidableEq P] in
theorem emitted_kept (t : List (Copy V P × Admit P)) (c : Copy V P) {a : Admit P} (ha : a.isEmitted = false) :
    emitted (t ++ [(c, a)]) = emitted t := by
  rw [emitted_append]
  unfold emitted
  simp [ha]

/-- **One copy.** -/
theorem Retains.step (h : Retains capacity t w) (c : Copy V P) :
    Retains capacity (t ++ [(c, (w.admitCopy capacity c).2)]) (w.admitCopy capacity c).1 := by
  unfold DedupSeen.admitCopy
  split
  · rename_i winner winnerArrivalNs hget
    generalize ha : (if winner = c.publisher then Admit.dropped else Admit.contest winner (c.arrivalNs - winnerArrivalNs)) = a
    have hkept : a.isEmitted = false := by
      rw [← ha]
      split <;> rfl
    refine ⟨?_, ?_, h.keys, fun v p at' hv => ?_⟩
    · rw [emitted_kept t c hkept]
      exact h.order
    · rw [emitted_kept t c hkept]
      exact h.fresh
    · obtain ⟨u, r, rfl, hr⟩ := h.copies v p at' hv
      exact ⟨u, r ++ [(c, a)], by simp, by rwa [emitted_kept r c hkept]⟩
  · rename_i hnew
    exact h.recorded hnew

theorem retains_run (capacity : Nat) (copies : List (Copy V P)) :
    Retains capacity ((keyWindow capacity).trace .default copies) ((keyWindow capacity).exec .default copies) :=
  Machine.history_rule (P := Retains capacity) .nil (fun _ _ c h => h.step c) copies

/-- How a copy is decided after the history `u` of its key. -/
structure Decided (capacity : Nat) (u : List (Copy V P × Admit P)) (c : Copy V P) (a : Admit P) : Prop where
  /-- a first copy goes out -/
  first : (∀ e ∈ u, e.1.value ≠ c.value) → a = .emitted true
  /-- a copy whose value went out before goes out only past `capacity` others -/
  again : a.isEmitted = true → ∀ u' e r, u = u' ++ (e, .emitted true) :: r → e.value = c.value → c.value ∉ emitted r →
    ∃ others : List V, others.Nodup ∧ others.length = capacity ∧ others.Sublist (emitted r) ∧ c.value ∉ others
  /-- what does not go out is a contest with the copy kept, unless that came from its publisher -/
  duplicate : a.isEmitted = false → ∃ u' e r, u = u' ++ (e, .emitted true) :: r ∧ e.value = c.value ∧
    c.value ∉ emitted r ∧ a = if e.publisher = c.publisher then .dropped else .contest e.publisher (c.arrivalNs - e.arrivalNs)

theorem Retains.decided (h : Retains capacity t w) (c : Copy V P) : Decided capacity t c (w.admitCopy capacity c).2 := by
  unfold DedupSeen.admitCopy
  split
  · rename_i winner winnerArrivalNs hget
    obtain ⟨u, r, rfl, hr⟩ := h.copies _ _ _ hget
    refine ⟨fun hfirst => ?_, fun hout => ?_, fun _ => ?_⟩
    · exact absurd rfl (hfirst (⟨c.value, winner, winnerArrivalNs⟩, .emitted true) (by simp))
    · simp only at hout
      split at hout <;> cases hout
    · exact ⟨u, ⟨c.value, winner, winnerArrivalNs⟩, r, rfl, rfl, hr, rfl⟩
  · rename_i hnew
    refine ⟨fun _ => rfl, fun _ u' e r heq hvalue hr => ?_, fun hout => by cases hout⟩
    have hout : c.value ∉ (emitted t).rtake capacity := by
      rw [← h.order, h.keys]
      simp [hnew]
    have hfresh := h.fresh.note hout
    have hsplit : emitted t = emitted u' ++ c.value :: emitted r := by
      rw [heq, emitted_append, ← hvalue]
      rfl
    rw [hsplit, List.append_assoc, List.cons_append] at hfresh
    exact hfresh.spaced hr

/-- **The trade window.**  The decisions for a key are those of its own copies; a first copy goes out, a value goes out
again only past `capacity` others, and a duplicate is a contest exactly when its publisher is not that of the copy kept;
and the map and the queue of a key hold the same values, each once, `capacity` of them at most. -/
theorem trade_window (capacity : Nat) (calls : List (K × Copy V P)) (key : K) :
    let t := admitsFor key (WindowedDedup.machine.trace (.new capacity) calls)
    let w := (WindowedDedup.machine.exec (.new capacity) calls).window key
    t = (keyWindow capacity).trace .default (copiesFor key calls) ∧
      (∀ u c a r, t = u ++ (c, a) :: r → Decided capacity u c a) ∧
      w.order.Nodup ∧ w.order.length ≤ capacity ∧ ∀ v, v ∈ w.order ↔ v ∈ w.seen.keys := by
  intro t w
  obtain ⟨htrace, hexec⟩ := dedup_run key calls (.new capacity)
  have hrun := retains_run capacity (copiesFor key calls)
  have ht : t = (keyWindow capacity).trace .default (copiesFor key calls) := htrace
  have hw : w = (keyWindow capacity).exec .default (copiesFor key calls) := hexec
  refine ⟨ht, fun u c a r hsplit => ?_, ?_, ?_, fun v => ?_⟩
  · obtain ⟨js, c', ks, hcopies, hu, he⟩ := Machine.trace_split _ (ht.symm.trans hsplit)
    cases he
    rw [← hu]
    exact (retains_run capacity js).decided c
  · rw [hw, hrun.order]
    exact hrun.fresh.nodup
  · rw [hw, hrun.order]
    exact Recent.length_rtake_le
  · rw [hw, hrun.keys, Option.isSome_iff_exists, FinMap.mem_keys_iff]

/-- A value comes back past the window, and a value still in it is contested by another publisher only. -/
example : ((keyWindow 1).trace (.default : DedupSeen Nat Nat) [⟨7, 1, 0⟩, ⟨7, 1, 3⟩, ⟨7, 2, 5⟩, ⟨8, 1, 6⟩, ⟨7, 2, 9⟩]).map
    Prod.snd = [.emitted true, .dropped, .contest 1 5, .emitted true, .emitted true] := rfl

end EdgeConnect.Arbiter
