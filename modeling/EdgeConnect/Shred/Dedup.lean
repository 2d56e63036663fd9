import Mathlib.Order.Interval.Finset.Nat
import EdgeConnect.Lib.FinMap
import EdgeConnect.Lib.Machine
import EdgeConnect.Shred.Parse

/-!
# Prefer-valid shred deduplication (`src/shred/dedup.rs`)

A key is recorded once a verified copy of it has been forwarded; an invalid copy leaves it open.  The window
keeps the slots within `window_slots` of the highest slot a winner had.

* `DedupWindow.decide`, `recordWinner`, `horizon` — as the source has them; `verify` is a closure over a
  state of its own, so that its evaluations can be counted;
* `winner_recordWinner` — what is recorded after a winner, key by key;
* `Recorded` — the window against the calls made on it;
* `prefer_valid` — forwarded once while the slot is tracked, never locked out by an invalid copy.
-/

set_option autoImplicit false

namespace EdgeConnect.Shred

inductive Action where
  | forward
  | drop
  | dropDuplicate (winnerGroup leadNs : Nat)
  deriving DecidableEq, Repr

/-- The key of a shred within its slot: index, type and fingerprint. -/
abbrev ShredKey := Nat × ShredType × Nat

/-- The winners of one slot, with the group and the arrival of the copy that was forwarded first. -/
abbrev SlotWinners := FinMap ShredKey (Nat × Nat)

structure DedupWindow where
  windowSlots : Nat
  slots : FinMap Nat SlotWinners
  tip : Nat

/-- A copy of a shred. -/
structure Copy where
  slot : Nat
  index : Nat
  shredType : ShredType
  fingerprint : Nat
  group : Nat
  arrivalNs : Nat
  deriving DecidableEq, Repr

def Copy.key (c : Copy) : ShredKey := (c.index, c.shredType, c.fingerprint)

/-- Two copies of one shred. -/
def Copy.Same (c c' : Copy) : Prop := c.slot = c'.slot ∧ c.key = c'.key

namespace DedupWindow

def new (windowSlots : Nat) : DedupWindow := ⟨windowSlots, ∅, 0⟩

/-- `horizon`: the lowest slot still inside the window. -/
def horizon (w : DedupWindow) : Nat := w.tip - w.windowSlots

/-- `tracked_slots`. -/
def trackedSlots (w : DedupWindow) : Nat := w.slots.size

/-- The recorded winner of a key. -/
def winner (w : DedupWindow) (slot : Nat) (key : ShredKey) : Option (Nat × Nat) :=
  (w.slots.get slot).bind fun s => s.get key

/-- The tip follows a winner's slot, and the slots below the horizon are split off. -/
def advance (w : DedupWindow) (slot : Nat) : DedupWindow :=
  if slot > w.tip then
    let w := { w with tip := slot }
    { w with slots := w.slots.filter fun s _ => w.horizon ≤ s }
  else w

/-- `record_winner`: a winner of a slot that was evicted already is not tracked. -/
def recordWinner (w : DedupWindow) (slot : Nat) (key : ShredKey) (group arrivalNs : Nat) : DedupWindow :=
  let w := w.advance slot
  if slot ≥ w.horizon then
    { w with slots := w.slots.insert slot (((w.slots.get slot).getD ∅).insert key (group, arrivalNs)) }
  else w

/-- `decide`: `verify` is evaluated only when the key has no winner yet. -/
def decide {σ : Type} (w : DedupWindow) (c : Copy) (verify : σ → Bool × σ) (s : σ) : DedupWindow × Action × σ :=
  match w.winner c.slot c.key with
  | some (winnerGroup, winnerArrivalNs) =>
    (w, if winnerGroup = c.group then .drop else .dropDuplicate winnerGroup (c.arrivalNs - winnerArrivalNs), s)
  | none =>
    match verify s with
    | (true, s) => (w.recordWinner c.slot c.key c.group c.arrivalNs, .forward, s)
    | (false, s) => (w, .drop, s)

/-! ## What is recorded -/

variable {w : DedupWindow} {slot : Nat} {key : ShredKey} {group arrivalNs : Nat} {c : Copy}

/-- Every tracked slot lies within the window. -/
def Within (w : DedupWindow) : Prop := ∀ s winners, w.slots.get s = some winners → w.horizon ≤ s ∧ s ≤ w.tip

theorem advance_tip (w : DedupWindow) (slot : Nat) : (w.advance slot).tip = max w.tip slot := by
  unfold advance
  split
  · rename_i h
    exact (Nat.max_eq_right (Nat.le_of_lt h)).symm
  · rename_i h
    exact (Nat.max_eq_left (Nat.le_of_not_lt h)).symm

theorem advance_windowSlots (w : DedupWindow) (slot : Nat) : (w.advance slot).windowSlots = w.windowSlots := by
  unfold advance
  split
  · rfl
  · rfl

theorem advance_horizon (w : DedupWindow) (slot : Nat) :
    (w.advance slot).horizon = max w.tip slot - w.windowSlots := by
  unfold horizon
  rw [advance_tip, advance_windowSlots]

/-- Whatever is still inside the window stays. -/
theorem advance_get (hw : w.Within) (slot s : Nat) :
    (w.advance slot).slots.get s = if (w.advance slot).horizon ≤ s then w.slots.get s else none := by
  have hin : ∀ winners, w.slots.get s = some winners → w.horizon ≤ s := fun winners hs => (hw s winners hs).1
  rw [advance_horizon]
  unfold advance
  split
  · rename_i h
    rw [Nat.max_eq_right (Nat.le_of_lt h)]
    simp only [horizon, FinMap.get_filter]
    cases w.slots.get s with
    | none => simp
    | some winners => simp [Option.filter]
  · rename_i h
    rw [Nat.max_eq_left (Nat.le_of_not_lt h)]
    cases hs : w.slots.get s with
    | none => rw [ite_self]
    | some winners => exact (if_pos (hin winners hs)).symm

theorem recordWinner_tip (w : DedupWindow) : (w.recordWinner slot key group arrivalNs).tip = max w.tip slot := by
  unfold recordWinner
  simp only
  split
  · exact advance_tip w slot
  · exact advance_tip w slot

theorem recordWinner_windowSlots (w : DedupWindow) :
    (w.recordWinner slot key group arrivalNs).windowSlots = w.windowSlots := by
  unfold recordWinner
  simp only
  split
  · exact advance_windowSlots w slot
  · exact advance_windowSlots w slot

theorem recordWinner_horizon (w : DedupWindow) :
    (w.recordWinner slot key group arrivalNs).horizon = max w.tip slot - w.windowSlots := by
  unfold horizon
  rw [recordWinner_tip, recordWinner_windowSlots]

/-- **What is recorded after a winner**: nothing below the horizon, and above it what was and the winner. -/
theorem winner_recordWinner (hw : w.Within) (slot : Nat) (key : ShredKey) (group arrivalNs s : Nat) (k : ShredKey) :
    (w.recordWinner slot key group arrivalNs).winner s k =
      if (w.recordWinner slot key group arrivalNs).horizon ≤ s then
        if s = slot ∧ k = key then some (group, arrivalNs) else w.winner s k
      else none := by
  have hadv := advance_get hw slot
  rw [recordWinner_horizon, ← advance_horizon]
  unfold recordWinner winner
  simp only
  split
  · rename_i hin
    by_cases hs : s = slot
    · subst hs
      rw [if_pos hin, FinMap.get_insert_self, hadv s, if_pos hin]
      show FinMap.get (((w.slots.get s).getD ∅).insert key _) k = _
      rw [FinMap.get_insert]
      cases w.slots.get s with
      | none => simp
      | some winners => simp
    · rw [FinMap.get_insert_of_ne _ _ hs, hadv s, if_neg (fun h : s = slot ∧ k = key => hs h.1)]
      split
      · rfl
      · rfl
  · rename_i hout
    rw [hadv s]
    split
    · rename_i hin
      have hne : ¬ (s = slot ∧ k = key) := fun h => hout (h.1 ▸ hin)
      rw [if_neg hne]
    · rfl

theorem within_recordWinner (hw : w.Within) : (w.recordWinner slot key group arrivalNs).Within := by
  have hadv := advance_get hw slot
  have hle : ∀ s winners, (w.advance slot).slots.get s = some winners →
      (w.advance slot).horizon ≤ s ∧ s ≤ max w.tip slot := by
    intro s winners hs
    rw [hadv s] at hs
    split at hs
    · rename_i hin
      exact ⟨hin, Nat.le_trans (hw s winners hs).2 (Nat.le_max_left _ _)⟩
    · cases hs
  intro s winners hs
  rw [recordWinner_horizon, recordWinner_tip, ← advance_horizon]
  unfold recordWinner at hs
  simp only at hs
  split at hs
  · rename_i hin
    by_cases hslot : s = slot
    · subst hslot
      exact ⟨hin, Nat.le_max_right _ _⟩
    · simp only [FinMap.get_insert_of_ne _ _ hslot] at hs
      exact hle s winners hs
  · exact hle s winners hs

/-- The window holds at most one slot more than it is wide. -/
theorem Within.trackedSlots_le (hw : w.Within) : w.trackedSlots ≤ w.windowSlots + 1 := by
  have hsub : w.slots.keys ⊆ Finset.Icc w.horizon w.tip := by
    intro s hs
    obtain ⟨winners, hget⟩ := FinMap.mem_keys_iff.mp hs
    exact Finset.mem_Icc.mpr (hw s winners hget)
  have hcard := Finset.card_le_card hsub
  rw [Nat.card_Icc] at hcard
  unfold trackedSlots FinMap.size
  unfold horizon at hcard
  omega

end DedupWindow

/-! ## Runs -/

/-- A copy that arrives, and what `verify` would say of it. -/
structure Call where
  copy : Copy
  verdict : Bool
  deriving DecidableEq, Repr

/-- One call, with the evaluations of `verify` counted. -/
def Call.step (w : DedupWindow) (c : Call) : DedupWindow × Action × Nat :=
  w.decide c.copy (fun evaluated => (c.verdict, evaluated + 1)) 0

def dedup : Machine DedupWindow Call (Action × Nat) := ⟨Call.step⟩

variable {w : DedupWindow} {c : Call}

/-- **One call**: a duplicate of a winner, a new winner, or an invalid copy. -/
theorem step_cases (w : DedupWindow) (c : Call) :
    (∃ g action, w.winner c.copy.slot c.copy.key = some g ∧ action ≠ .forward ∧ c.step w = (w, action, 0)) ∨
      (w.winner c.copy.slot c.copy.key = none ∧ c.verdict = true ∧
        c.step w = (w.recordWinner c.copy.slot c.copy.key c.copy.group c.copy.arrivalNs, .forward, 1)) ∨
      (w.winner c.copy.slot c.copy.key = none ∧ c.verdict = false ∧ c.step w = (w, .drop, 1)) := by
  unfold Call.step DedupWindow.decide
  cases hwin : w.winner c.copy.slot c.copy.key with
  | some g =>
    refine Or.inl ⟨g, _, rfl, ?_, rfl⟩
    split
    · exact nofun
    · exact nofun
  | none =>
    right
    cases hv : c.verdict with
    | true => exact Or.inl ⟨rfl, rfl, rfl⟩
    | false => exact Or.inr ⟨rfl, rfl, rfl⟩

/-- The window against the calls made on it: what was forwarded is recorded or below the horizon, and what is
recorded was forwarded. -/
structure Recorded (windowSlots : Nat) (t : List (Call × Action × Nat)) (w : DedupWindow) : Prop where
  within : w.Within
  width : w.windowSlots = windowSlots
  kept : ∀ e ∈ t, e.2.1 = .forward → w.winner e.1.copy.slot e.1.copy.key ≠ none ∨ e.1.copy.slot < w.horizon
  real : ∀ s k, w.winner s k ≠ none → ∃ e ∈ t, e.1.copy.slot = s ∧ e.1.copy.key = k ∧ e.2.1 = .forward

theorem recorded_new (windowSlots : Nat) : Recorded windowSlots [] (.new windowSlots) :=
  ⟨nofun, rfl, nofun, fun _ _ h => absurd rfl h⟩

theorem Recorded.forward {windowSlots : Nat} {t : List (Call × Action × Nat)} (h : Recorded windowSlots t w)
    (c : Call) (n : Nat) :
    Recorded windowSlots (t ++ [(c, .forward, n)])
      (w.recordWinner c.copy.slot c.copy.key c.copy.group c.copy.arrivalNs) := by
  have hwin := DedupWindow.winner_recordWinner h.within c.copy.slot c.copy.key c.copy.group c.copy.arrivalNs
  have hhorizon : w.horizon ≤
      (w.recordWinner c.copy.slot c.copy.key c.copy.group c.copy.arrivalNs).horizon := by
    rw [DedupWindow.recordWinner_horizon]
    exact Nat.sub_le_sub_right (Nat.le_max_left _ _) _
  refine ⟨DedupWindow.within_recordWinner h.within, ?_, fun e he hf => ?_, fun s k hsk => ?_⟩
  · rw [DedupWindow.recordWinner_windowSlots, h.width]
  · by_cases hin : (w.recordWinner c.copy.slot c.copy.key c.copy.group c.copy.arrivalNs).horizon ≤ e.1.copy.slot
    · left
      rw [hwin, if_pos hin]
      split
      · exact nofun
      · rename_i hne
        rcases List.mem_append.mp he with he | he
        · rcases h.kept e he hf with hkept | hbelow
          · exact hkept
          · exact absurd (Nat.lt_of_lt_of_le hbelow (Nat.le_trans hhorizon hin)) (Nat.lt_irrefl _)
        · rw [List.mem_singleton.mp he] at hne
          exact absurd ⟨rfl, rfl⟩ hne
    · exact Or.inr (Nat.lt_of_not_le hin)
  · rw [hwin] at hsk
    split at hsk
    · split at hsk
      · rename_i hsame
        exact ⟨_, List.mem_append_right _ (List.mem_singleton_self _), hsame.1.symm, hsame.2.symm, rfl⟩
      · obtain ⟨e, he, hrest⟩ := h.real s k hsk
        exact ⟨e, List.mem_append_left _ he, hrest⟩
    · exact absurd rfl hsk

/-- A call that forwards nothing records nothing. -/
theorem Recorded.drop {windowSlots : Nat} {t : List (Call × Action × Nat)} (h : Recorded windowSlots t w)
    (c : Call) {action : Action} (ha : action ≠ .forward) (n : Nat) :
    Recorded windowSlots (t ++ [(c, action, n)]) w := by
  refine ⟨h.within, h.width, fun e he hf => ?_, fun s k hsk => ?_⟩
  · rcases List.mem_append.mp he with he | he
    · exact h.kept e he hf
    · rw [List.mem_singleton.mp he] at hf
      exact absurd hf ha
  · obtain ⟨e, he, hrest⟩ := h.real s k hsk
    exact ⟨e, List.mem_append_left _ he, hrest⟩

theorem recorded_run (windowSlots : Nat) (calls : List Call) :
    Recorded windowSlots (dedup.trace (.new windowSlots) calls) (dedup.exec (.new windowSlots) calls) := by
  refine Machine.history_rule (P := Recorded windowSlots) (recorded_new windowSlots) (fun t w c h => ?_) calls
  show Recorded windowSlots (t ++ [(c, (c.step w).2)]) (c.step w).1
  rcases step_cases w c with ⟨g, action, -, ha, hstep⟩ | ⟨-, -, hstep⟩ | ⟨-, -, hstep⟩
  · rw [hstep]
    exact h.drop c ha 0
  · rw [hstep]
    exact h.forward c 1
  · rw [hstep]
    exact h.drop c (show Action.drop ≠ .forward from nofun) 1

/-- What the call after some others is answered. -/
def answer (windowSlots : Nat) (calls : List Call) (c : Call) : Action × Nat :=
  (c.step (dedup.exec (.new windowSlots) calls)).2

/-- The call evaluated `verify` and was told that the copy is invalid. -/
def Refused (e : Call × Action × Nat) : Prop := e.2.2 ≠ 0 ∧ e.1.verdict = false

instance (e : Call × Action × Nat) : Decidable (Refused e) := inferInstanceAs (Decidable (_ ∧ _))

/-- A refused call leaves the window alone. -/
theorem refused_step (h : Refused (c, (c.step w).2)) : (c.step w).1 = w := by
  rcases step_cases w c with ⟨g, action, -, -, hstep⟩ | ⟨-, hv, -⟩ | ⟨-, -, hstep⟩
  · rw [hstep]
  · rw [show c.verdict = false from h.2] at hv
    cases hv
  · rw [hstep]

/-- Without the refused calls, every other call is answered as before. -/
theorem trace_without_refused : ∀ (calls : List Call) (w : DedupWindow),
    dedup.trace w (((dedup.trace w calls).filter fun e => ¬ Refused e).map Prod.fst) =
      (dedup.trace w calls).filter fun e => ¬ Refused e
  | [], _ => rfl
  | c :: calls, w => by
    rw [Machine.trace_cons]
    by_cases hr : Refused (c, (dedup.step w c).2)
    · have hsame : (dedup.step w c).1 = w := refused_step hr
      rw [hsame, List.filter_cons_of_neg (by simpa using hr)]
      exact trace_without_refused calls w
    · rw [List.filter_cons_of_pos (by simpa using hr), List.map_cons, Machine.trace_cons,
        trace_without_refused calls]

theorem mem_trace_split {windowSlots : Nat} {calls : List Call} {e : Call × Action × Nat}
    (h : e ∈ dedup.trace (.new windowSlots) calls) :
    ∃ pre post, calls = pre ++ e.1 :: post ∧ e.2 = answer windowSlots pre e.1 := by
  obtain ⟨t, u, htrace⟩ := List.append_of_mem h
  obtain ⟨pre, c, post, hcalls, -, he⟩ := dedup.trace_split htrace
  rw [he]
  exact ⟨pre, post, hcalls, rfl⟩

/-- **Prefer-valid deduplication**, over every sequence of calls: a shred is forwarded twice only below the
horizon; a valid copy is forwarded unless one was before; `verify` is evaluated at most once, and never for a
recorded key; invalid copies might as well not have come; and the window is bounded. -/
theorem prefer_valid (windowSlots : Nat) :
    (∀ pre x mid y, (answer windowSlots pre x).1 = .forward →
      (answer windowSlots (pre ++ x :: mid) y).1 = .forward → x.copy.Same y.copy →
      y.copy.slot < (dedup.exec (.new windowSlots) (pre ++ x :: mid)).horizon) ∧
    (∀ pre x, x.verdict = true → (answer windowSlots pre x).1 = .forward ∨
      ∃ pre' y post, pre = pre' ++ y :: post ∧ y.copy.Same x.copy ∧ (answer windowSlots pre' y).1 = .forward) ∧
    (∀ pre x, (answer windowSlots pre x).2 ≤ 1 ∧
      ((dedup.exec (.new windowSlots) pre).winner x.copy.slot x.copy.key ≠ none →
        (answer windowSlots pre x).2 = 0)) ∧
    (∀ calls, dedup.trace (.new windowSlots)
        (((dedup.trace (.new windowSlots) calls).filter fun e => ¬ Refused e).map Prod.fst) =
      (dedup.trace (.new windowSlots) calls).filter fun e => ¬ Refused e) ∧
    (∀ calls, (dedup.exec (.new windowSlots) calls).Within ∧
      (dedup.exec (.new windowSlots) calls).trackedSlots ≤ windowSlots + 1) := by
  refine ⟨?_, ?_, ?_, fun calls => trace_without_refused calls _, ?_⟩
  · intro pre x mid y hx hy hsame
    have hrec := recorded_run windowSlots (pre ++ x :: mid)
    have hmem : (x, answer windowSlots pre x) ∈ dedup.trace (.new windowSlots) (pre ++ x :: mid) := by
      rw [Machine.trace_append]
      exact List.mem_append_right _ List.mem_cons_self
    have hopen : (dedup.exec (.new windowSlots) (pre ++ x :: mid)).winner y.copy.slot y.copy.key = none := by
      unfold answer at hy
      rcases step_cases (dedup.exec (.new windowSlots) (pre ++ x :: mid)) y with
        ⟨g, action, -, ha, hstep⟩ | ⟨hnone, -, -⟩ | ⟨hnone, -, -⟩
      · rw [hstep] at hy
        exact absurd hy ha
      · exact hnone
      · exact hnone
    rcases hrec.kept _ hmem hx with hkept | hbelow
    · rw [hsame.1, hsame.2] at hkept
      exact absurd hopen hkept
    · rw [← hsame.1]
      exact hbelow
  · intro pre x hv
    have hrec := recorded_run windowSlots pre
    unfold answer
    rcases step_cases (dedup.exec (.new windowSlots) pre) x with ⟨g, action, hg, -, -⟩ | ⟨-, -, hstep⟩ | ⟨-, hf, -⟩
    · right
      obtain ⟨e, he, hslot, hkey, hforward⟩ := hrec.real x.copy.slot x.copy.key (by rw [hg]; exact nofun)
      obtain ⟨pre', post, hpre, hanswer⟩ := mem_trace_split he
      refine ⟨pre', e.1, post, hpre, ⟨hslot, hkey⟩, ?_⟩
      rw [hanswer] at hforward
      exact hforward
    · left
      rw [hstep]
    · rw [hv] at hf
      cases hf
  · intro pre x
    unfold answer
    rcases step_cases (dedup.exec (.new windowSlots) pre) x with ⟨g, action, -, -, hstep⟩ | ⟨hnone, -, hstep⟩ |
      ⟨hnone, -, hstep⟩
    · rw [hstep]
      exact ⟨Nat.zero_le 1, fun _ => rfl⟩
    · rw [hstep]
      exact ⟨Nat.le_refl 1, fun h => absurd hnone h⟩
    · rw [hstep]
      exact ⟨Nat.le_refl 1, fun h => absurd hnone h⟩
  · intro calls
    have hrec := recorded_run windowSlots calls
    have hle := hrec.within.trackedSlots_le
    rw [hrec.width] at hle
    exact ⟨hrec.within, hle⟩

end EdgeConnect.Shred
