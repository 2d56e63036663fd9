import EdgeConnect.Lib.FinMap
import EdgeConnect.Lib.Machine

/-!
# The latch-to-leader floor (`StalenessFloor` in `src/ingest/arbiter.rs`)

Executable model of the per-key floor on `source_ts`: one key's tick state is `TickState`, its
admission decision `TickState.admit`, and `StalenessFloor` keeps one tick state per key.

The history of one key is a list of `(sample, decision)` pairs; `emissions` are its forwarded samples.

* `floor_run` — for a key no reset names, the floor is one copy of the per-key machine `tick`, run on
  that key's own samples;
* `TickInv` — what ties a key's history to its tick state;
* `latch_to_leader` — emissions never go back in time, each tick belongs to the publisher that opened
  it, is opened once and contested at most once, and repeats a content only after `tick_cap` others.
-/

set_option autoImplicit false

namespace EdgeConnect.Arbiter

/-! ## The model -/

/-- The outcome of an admission decision. -/
inductive Admit (P : Type*) where
  | emitted (openedTick : Bool)
  | dropped
  | contest (winner : P) (leadNs : Nat)
  deriving DecidableEq, Repr

/-- `Admit::emitted`: whether the message goes out. -/
def Admit.isEmitted {P : Type*} : Admit P → Bool
  | .emitted _ => true
  | _ => false

/-- Per-key tick state: the leader latched at the current `source_ts`, when its opening copy arrived,
whether a losing follower was counted, and the leader's distinct contents, oldest first. -/
structure TickState (V P : Type*) where
  highWater : Nat
  leader : P
  leaderArrivalNs : Nat
  followerRecorded : Bool
  content : Finset V
  order : List V

/-- One sample offered to the floor. -/
structure Sample (V P : Type*) where
  sourceTs : Nat
  content : V
  publisher : P
  arrivalNs : Nat
  deriving DecidableEq, Repr

variable {K V P : Type*} [DecidableEq K] [DecidableEq V] [DecidableEq P]

/-- The tick a sample opens. -/
def TickState.opened (s : Sample V P) : TickState V P where
  highWater := s.sourceTs
  leader := s.publisher
  leaderArrivalNs := s.arrivalNs
  followerRecorded := false
  content := {s.content}
  order := [s.content]

/-- New leader content: queue it, evicting the oldest past `tickCap`. -/
def TickState.push (tickCap : Nat) (st : TickState V P) (content : V) : TickState V P :=
  let order := st.order ++ [content]
  if order.length > tickCap then
    match order with
    | old :: rest => { st with content := (insert content st.content).erase old, order := rest }
    | [] => { st with content := insert content st.content, order }
  else { st with content := insert content st.content, order }

/-- The decision for one key: the tick state after it and the outcome. -/
def TickState.admitSample (tickCap : Nat) (st : Option (TickState V P)) (s : Sample V P) :
    TickState V P × Admit P :=
  match st with
  | none => (.opened s, .emitted true)
  | some st =>
    if s.sourceTs < st.highWater then (st, .dropped)
    else if s.sourceTs > st.highWater then (.opened s, .emitted true)
    else if s.publisher ≠ st.leader then
      if st.followerRecorded then (st, .dropped)
      else
        ({ st with followerRecorded := true },
          .contest st.leader (s.arrivalNs - st.leaderArrivalNs))
    else if s.content ∈ st.content then (st, .dropped)
    else (st.push tickCap s.content, .emitted false)

/-- Per-key latch-to-leader floor on `source_ts`. -/
structure StalenessFloor (K V P : Type*) where
  state : FinMap K (TickState V P)
  tickCap : Nat

namespace StalenessFloor

def new (tickCap : Nat) : StalenessFloor K V P := ⟨∅, tickCap⟩

/-- `admit`: the latch-to-leader decision for a sample of `key`. -/
def admitSample (f : StalenessFloor K V P) (key : K) (s : Sample V P) : StalenessFloor K V P × Admit P :=
  let (st, a) := TickState.admitSample f.tickCap (f.state.get key) s
  ({ f with state := f.state.insert key st }, a)

/-- `reset_where`: drop the tick state of every key matching `pred`, returning how many. -/
def resetWhere (f : StalenessFloor K V P) (pred : K → Bool) : StalenessFloor K V P × Nat :=
  let state := f.state.filter fun k _ => !pred k
  ({ f with state }, f.state.size - state.size)

/-- One call on a floor. -/
inductive Call (K V P : Type*) where
  | admitSample (key : K) (sample : Sample V P)
  | resetWhere (pred : K → Bool)

/-- What a call answers. -/
inductive Reply (P : Type*) where
  | admitted (a : Admit P)
  | cleared (n : Nat)

def step (f : StalenessFloor K V P) : Call K V P → StalenessFloor K V P × Reply P
  | .admitSample key s => ((f.admitSample key s).1, .admitted (f.admitSample key s).2)
  | .resetWhere pred => ((f.resetWhere pred).1, .cleared (f.resetWhere pred).2)

/-- The floor as a machine over its calls. -/
def machine : Machine (StalenessFloor K V P) (Call K V P) (Reply P) := ⟨step⟩

end StalenessFloor

/-! ## One key -/

/-- The per-key machine: its state is the tick, if one was opened. -/
def tick (tickCap : Nat) : Machine (Option (TickState V P)) (Sample V P) (Admit P) :=
  ⟨fun st s => (some (TickState.admitSample tickCap st s).1, (TickState.admitSample tickCap st s).2)⟩

/-- The samples a run offers for one key. -/
def samplesFor (key : K) : List (StalenessFloor.Call K V P) → List (Sample V P)
  | [] => []
  | .admitSample k s :: cs => if k = key then s :: samplesFor key cs else samplesFor key cs
  | .resetWhere _ :: cs => samplesFor key cs

/-- The decisions of a run for one key. -/
def decisionsFor (key : K) :
    List (StalenessFloor.Call K V P × StalenessFloor.Reply P) → List (Sample V P × Admit P)
  | [] => []
  | (.admitSample k s, .admitted a) :: t =>
    if k = key then (s, a) :: decisionsFor key t else decisionsFor key t
  | _ :: t => decisionsFor key t

/-- The calls of a run that offer a sample for one key. -/
def callsFor (key : K) (calls : List (StalenessFloor.Call K V P)) : List (StalenessFloor.Call K V P) :=
  (samplesFor key calls).map (.admitSample key)

omit [DecidableEq V] [DecidableEq P] in
theorem samplesFor_map_key (key : K) : ∀ ss : List (Sample V P),
    samplesFor key (ss.map (StalenessFloor.Call.admitSample key)) = ss
  | [] => rfl
  | s :: ss => by
    rw [List.map_cons, samplesFor, if_pos rfl, samplesFor_map_key key ss]

/-- **The floor is one machine per key**: the decisions for a key that no reset names, and its tick
state, are those of the per-key machine on that key's own samples. -/
theorem floor_run (key : K) : ∀ (calls : List (StalenessFloor.Call K V P)) (f : StalenessFloor K V P),
    (∀ pred, .resetWhere pred ∈ calls → pred key = false) →
    decisionsFor key (StalenessFloor.machine.trace f calls) =
      (tick f.tickCap).trace (f.state.get key) (samplesFor key calls) ∧
    (StalenessFloor.machine.exec f calls).state.get key =
      (tick f.tickCap).exec (f.state.get key) (samplesFor key calls)
  | [], f, _ => ⟨rfl, rfl⟩
  | .admitSample k s :: cs, f, h => by
    obtain ⟨hd, hs⟩ := floor_run key cs (f.admitSample k s).1 fun p hp => h p (List.mem_cons_of_mem _ hp)
    have hcap : (f.admitSample k s).1.tickCap = f.tickCap := rfl
    rw [Machine.trace_cons, Machine.exec_cons]
    show decisionsFor key ((.admitSample k s, .admitted (f.admitSample k s).2) ::
        StalenessFloor.machine.trace (f.admitSample k s).1 cs) = _ ∧
      (StalenessFloor.machine.exec (f.admitSample k s).1 cs).state.get key = _
    rw [decisionsFor, samplesFor, hd, hs, hcap]
    by_cases hk : k = key
    · subst hk
      have hget : (f.admitSample k s).1.state.get k =
          some (TickState.admitSample f.tickCap (f.state.get k) s).1 := FinMap.get_insert_self _ _ _
      rw [if_pos rfl, if_pos rfl, hget]
      exact ⟨rfl, rfl⟩
    · have hget : (f.admitSample k s).1.state.get key = f.state.get key :=
        FinMap.get_insert_of_ne _ _ (fun he => hk he.symm)
      rw [if_neg hk, if_neg hk, hget]
      exact ⟨rfl, rfl⟩
  | .resetWhere pred :: cs, f, h => by
    obtain ⟨hd, hs⟩ :=
      floor_run key cs (f.resetWhere pred).1 fun p hp => h p (List.mem_cons_of_mem _ hp)
    have hcap : (f.resetWhere pred).1.tickCap = f.tickCap := rfl
    have hget : (f.resetWhere pred).1.state.get key = f.state.get key := by
      show (f.state.filter fun k _ => !pred k).get key = f.state.get key
      rw [FinMap.get_filter, h pred List.mem_cons_self]
      cases f.state.get key <;> rfl
    rw [Machine.trace_cons, Machine.exec_cons]
    show decisionsFor key ((.resetWhere pred, .cleared (f.resetWhere pred).2) ::
        StalenessFloor.machine.trace (f.resetWhere pred).1 cs) = _ ∧
      (StalenessFloor.machine.exec (f.resetWhere pred).1 cs).state.get key = _
    rw [decisionsFor, samplesFor, hd, hs, hcap, hget]
    · exact ⟨rfl, rfl⟩
    · intro k s a he; cases he

/-! ## The history of one key -/

/-- The forwarded samples of a history, each with whether it opened its tick. -/
def emissions (t : List (Sample V P × Admit P)) : List (Sample V P × Bool) :=
  t.filterMap fun e => match e.2 with
    | .emitted o => some (e.1, o)
    | _ => none

/-- The samples of a history that reported a contest. -/
def contests (t : List (Sample V P × Admit P)) : List (Sample V P) :=
  t.filterMap fun e => match e.2 with
    | .contest _ _ => some e.1
    | _ => none

/-- The contents emitted at one tick. -/
def contentsAt (ts : Nat) (es : List (Sample V P × Bool)) : List V :=
  (es.filter fun e => e.1.sourceTs == ts).map fun e => e.1.content

/-- The number of distinct contents other than `v` emitted at one tick. -/
def othersAt (ts : Nat) (v : V) (es : List (Sample V P × Bool)) : Nat :=
  ((contentsAt ts es).toFinset.erase v).card

variable {cap : Nat} {es : List (Sample V P × Bool)} {cs : List (Sample V P)} {st : TickState V P}

/-- What a history of emissions and contests looks like from outside. -/
structure Latched (cap : Nat) (es : List (Sample V P × Bool)) (cs : List (Sample V P)) : Prop where
  sorted : es.Pairwise fun a b => a.1.sourceTs ≤ b.1.sourceTs
  owner : ∀ a ∈ es, ∀ b ∈ es, a.1.sourceTs = b.1.sourceTs → a.1.publisher = b.1.publisher
  openedOnce : ∀ a ∈ es, (es.filter fun b => b.1.sourceTs == a.1.sourceTs && b.2).length = 1
  contested : ∀ ts, (cs.filter fun c => c.sourceTs == ts).length ≤ 1
  repeated : ∀ xs a ys b zs, es = xs ++ a :: ys ++ b :: zs → a.1.sourceTs = b.1.sourceTs →
    a.1.content = b.1.content → cap ≤ othersAt a.1.sourceTs a.1.content ys

/-- How the tick state remembers that history. -/
structure Remembers (cap : Nat) (es : List (Sample V P × Bool)) (cs : List (Sample V P))
    (st : TickState V P) : Prop where
  below : ∀ a ∈ es, a.1.sourceTs ≤ st.highWater
  opened : ∃ a ∈ es, a.1.sourceTs = st.highWater
  leader : ∀ a ∈ es, a.1.sourceTs = st.highWater → a.1.publisher = st.leader
  contested : ∀ c ∈ cs, c.sourceTs ≤ st.highWater ∧
    (c.sourceTs = st.highWater → st.followerRecorded = true)
  queued : ∀ xs a ys, es = xs ++ a :: ys → a.1.sourceTs = st.highWater →
    ∀ pre post, st.order = pre ++ a.1.content :: post → ∀ x ∈ post, x ∈ contentsAt st.highWater ys
  evicted : ∀ xs a ys, es = xs ++ a :: ys → a.1.sourceTs = st.highWater →
    a.1.content ∉ st.order → cap ≤ othersAt st.highWater a.1.content ys
  content : st.content = st.order.toFinset
  nodup : st.order.Nodup
  bounded : st.order.length ≤ cap

omit [DecidableEq P] in
theorem Latched.nil : Latched cap ([] : List (Sample V P × Bool)) [] where
  sorted := List.Pairwise.nil
  owner := nofun
  openedOnce := nofun
  contested _ := Nat.zero_le _
  repeated xs a ys b zs h := by simp at h

omit [DecidableEq P] in
/-- **One more emission.** It is not in the past, opens its tick exactly when nothing was emitted there
yet, follows the tick's owner, and repeats a content only past `cap` others. -/
theorem Latched.emit (h : Latched cap es cs) {s : Sample V P} {o : Bool}
    (hpast : ∀ a ∈ es, a.1.sourceTs ≤ s.sourceTs)
    (hopen : o = true ↔ ∀ a ∈ es, a.1.sourceTs ≠ s.sourceTs)
    (howner : ∀ a ∈ es, a.1.sourceTs = s.sourceTs → a.1.publisher = s.publisher)
    (hrepeat : ∀ xs a ys, es = xs ++ a :: ys → a.1.sourceTs = s.sourceTs →
      a.1.content = s.content → cap ≤ othersAt s.sourceTs s.content ys) :
    Latched cap (es ++ [(s, o)]) cs where
  sorted := by
    rw [List.pairwise_append]
    refine ⟨h.sorted, List.pairwise_singleton _ _, fun a ha b hb => ?_⟩
    rw [List.mem_singleton.mp hb]; exact hpast a ha
  owner := by
    intro a ha b hb hab
    rw [List.mem_append, List.mem_singleton] at ha hb
    rcases ha with ha | rfl <;> rcases hb with hb | rfl
    · exact h.owner a ha b hb hab
    · exact howner a ha hab
    · exact (howner b hb hab.symm).symm
    · rfl
  openedOnce := by
    intro a ha
    rw [List.filter_append, List.length_append]
    rw [List.mem_append, List.mem_singleton] at ha
    by_cases hts : ∃ b ∈ es, b.1.sourceTs = s.sourceTs
    · -- the tick is open: the new emission does not open it again
      obtain ⟨b, hb, hbs⟩ := hts
      have ho : o = false := by
        cases o with
        | false => rfl
        | true => exact absurd hbs (hopen.mp rfl b hb)
      have hone : ((es.filter fun c => c.1.sourceTs == a.1.sourceTs && c.2).length) = 1 := by
        rcases ha with ha | rfl
        · exact h.openedOnce a ha
        · have := h.openedOnce b hb
          rwa [hbs] at this
      rw [hone, ho]
      simp
    · have hnone : ∀ b ∈ es, b.1.sourceTs ≠ s.sourceTs := fun b hb he => hts ⟨b, hb, he⟩
      have ho : o = true := hopen.mpr hnone
      rcases ha with ha | rfl
      · have hne : s.sourceTs ≠ a.1.sourceTs := fun he => hnone a ha he.symm
        rw [h.openedOnce a ha]
        simp [hne]
      · have hzero : (es.filter fun c => c.1.sourceTs == s.sourceTs && c.2) = [] := by
          rw [List.filter_eq_nil_iff]
          intro c hc
          simp [hnone c hc]
        simp [hzero, ho]
  contested := h.contested
  repeated := by
    intro xs a ys b zs heq hts hcontent
    rcases List.eq_nil_or_concat zs with rfl | ⟨zs', z, rfl⟩
    · -- the new emission is the second copy
      have heq' : es ++ [(s, o)] = (xs ++ a :: ys) ++ [b] := heq
      obtain ⟨hes, hb⟩ := List.append_inj' heq' rfl
      obtain rfl : (s, o) = b := List.singleton_inj.mp hb
      rw [hts, hcontent]
      exact hrepeat xs a ys hes hts hcontent
    · have heq' : es ++ [(s, o)] = (xs ++ a :: ys ++ b :: zs') ++ [z] := by
        rw [heq, List.concat_eq_append]; simp
      obtain ⟨hes, -⟩ := List.append_inj' heq' rfl
      exact h.repeated xs a ys b zs' hes hts hcontent

/-- A split of a list with one more element is a split of the list or that element itself. -/
theorem split_snoc {α : Type*} {l xs ys : List α} {e a : α} (h : l ++ [e] = xs ++ a :: ys) :
    (ys = [] ∧ a = e ∧ xs = l) ∨ ∃ ys', ys = ys' ++ [e] ∧ l = xs ++ a :: ys' := by
  rcases List.eq_nil_or_concat ys with rfl | ⟨ys', y, rfl⟩
  · obtain ⟨hl, he⟩ := List.append_inj' h rfl
    exact Or.inl ⟨rfl, (List.singleton_inj.mp he).symm, hl.symm⟩
  · have h' : l ++ [e] = (xs ++ a :: ys') ++ [y] := by
      rw [h, List.concat_eq_append]; simp
    obtain ⟨hl, he⟩ := List.append_inj' h' rfl
    exact Or.inr ⟨ys', by rw [List.concat_eq_append, List.singleton_inj.mp he], hl⟩

omit [DecidableEq V] [DecidableEq P] in
theorem mem_contentsAt_snoc {ts : Nat} {ys : List (Sample V P × Bool)} {s : Sample V P} {o : Bool}
    {x : V} (h : x ∈ contentsAt ts ys ∨ (s.sourceTs = ts ∧ x = s.content)) :
    x ∈ contentsAt ts (ys ++ [(s, o)]) := by
  unfold contentsAt at h ⊢
  rw [List.filter_append, List.map_append, List.mem_append]
  rcases h with h | ⟨hts, rfl⟩
  · exact Or.inl h
  · right; simp [hts]

omit [DecidableEq P] in
theorem othersAt_snoc_le (ts : Nat) (v : V) (ys : List (Sample V P × Bool)) (s : Sample V P) (o : Bool) :
    othersAt ts v ys ≤ othersAt ts v (ys ++ [(s, o)]) := by
  unfold othersAt
  refine Finset.card_le_card (Finset.erase_subset_erase v fun x hx => ?_)
  rw [List.mem_toFinset] at hx ⊢
  exact mem_contentsAt_snoc (Or.inl hx)

/-! ## The four decisions -/

omit [DecidableEq P] in
/-- A sample past every emission and contest opens a tick. -/
theorem remembers_opened (hcap : 1 ≤ cap) (h : Latched cap es cs) {s : Sample V P}
    (hes : ∀ a ∈ es, a.1.sourceTs < s.sourceTs) (hcs : ∀ c ∈ cs, c.sourceTs < s.sourceTs) :
    Latched cap (es ++ [(s, true)]) cs ∧ Remembers cap (es ++ [(s, true)]) cs (.opened s) := by
  have hne : ∀ a ∈ es, a.1.sourceTs ≠ s.sourceTs := fun a ha he => by have := hes a ha; omega
  have hlast : ∀ xs (a : Sample V P × Bool) ys, es ++ [(s, true)] = xs ++ a :: ys →
      a.1.sourceTs = s.sourceTs → ys = [] ∧ a = (s, true) := by
    intro xs a ys heq hts
    rcases split_snoc heq with ⟨hys, ha, -⟩ | ⟨ys', -, hes'⟩
    · exact ⟨hys, ha⟩
    · exact absurd hts (hne a (by rw [hes']; simp))
  refine ⟨h.emit (fun a ha => Nat.le_of_lt (hes a ha)) ⟨fun _ => hne, fun _ => rfl⟩
    (fun a ha he => absurd he (hne a ha))
    (fun xs a ys heq he _ => absurd he (hne a (by rw [heq]; simp))), ?_⟩
  constructor
  · intro a ha
    rw [List.mem_append, List.mem_singleton] at ha
    rcases ha with ha | rfl
    · exact Nat.le_of_lt (hes a ha)
    · exact Nat.le_refl _
  · exact ⟨(s, true), by simp, rfl⟩
  · intro a ha hts
    rw [List.mem_append, List.mem_singleton] at ha
    rcases ha with ha | rfl
    · exact absurd hts (hne a ha)
    · rfl
  · intro c hc
    have hlt := hcs c hc
    refine ⟨Nat.le_of_lt hlt, fun he => ?_⟩
    have he' : c.sourceTs = s.sourceTs := he
    omega
  · intro xs a ys heq hts pre post horder x hx
    obtain ⟨-, rfl⟩ := hlast xs a ys heq hts
    obtain ⟨-, hpost⟩ : pre = [] ∧ post = [] := by
      have := congrArg List.length (show [s.content] = pre ++ s.content :: post from horder)
      simp only [List.length_cons, List.length_nil, List.length_append] at this
      exact ⟨List.eq_nil_of_length_eq_zero (by omega), List.eq_nil_of_length_eq_zero (by omega)⟩
    rw [hpost] at hx
    cases hx
  · intro xs a ys heq hts hmem
    obtain ⟨-, rfl⟩ := hlast xs a ys heq hts
    exact absurd (List.mem_singleton.mpr rfl) hmem
  · rfl
  · exact List.nodup_singleton _
  · exact hcap

omit [DecidableEq P] in
/-- The first follower of a tick reports the contest. -/
theorem remembers_contest (h : Latched cap es cs) (hr : Remembers cap es cs st) {s : Sample V P}
    (hts : s.sourceTs = st.highWater) (hfirst : st.followerRecorded = false) :
    Latched cap es (cs ++ [s]) ∧
      Remembers cap es (cs ++ [s]) { st with followerRecorded := true } := by
  refine ⟨⟨h.sorted, h.owner, h.openedOnce, fun ts => ?_, h.repeated⟩,
    ⟨hr.below, hr.opened, hr.leader, fun c hc => ?_, hr.queued, hr.evicted, hr.content, hr.nodup,
      hr.bounded⟩⟩
  · rw [List.filter_append, List.length_append]
    by_cases he : s.sourceTs = ts
    · have hnone : (cs.filter fun c => c.sourceTs == ts) = [] := by
        rw [List.filter_eq_nil_iff]
        intro c hc hcts
        have hct : c.sourceTs = st.highWater := by
          rw [beq_iff_eq] at hcts; omega
        have := (hr.contested c hc).2 hct
        rw [hfirst] at this
        cases this
      simp [hnone, he]
    · have := h.contested ts
      simp [he]
      exact this
  · rw [List.mem_append, List.mem_singleton] at hc
    rcases hc with hc | rfl
    · exact ⟨(hr.contested c hc).1, fun _ => rfl⟩
    · exact ⟨Nat.le_of_eq hts, fun _ => rfl⟩

omit [DecidableEq P] in
/-- What `push` does to the queue: append, and drop the oldest when that passes the cap. -/
theorem push_cases (hb : st.order.length ≤ cap) (hcap : 1 ≤ cap) (v : V) :
    ∃ gone order, st.order ++ [v] = gone ++ order ∧ v ∈ order ∧ order.length ≤ cap ∧
      (gone = [] ∨ ∃ old, gone = [old] ∧ order.length = cap) ∧
      st.push cap v = { st with
        content := (insert v st.content) \ gone.toFinset, order := order } := by
  unfold TickState.push
  simp only
  split
  · rename_i hlong
    split
    · rename_i old rest hcons
      have hlen := congrArg List.length hcons
      simp only [List.length_append, List.length_cons, List.length_nil] at hlen hlong
      have hmem : v ∈ rest := by
        cases ho : st.order with
        | nil => rw [ho] at hlong; simp only [List.length_nil] at hlong; omega
        | cons x xs =>
          rw [ho] at hcons
          obtain ⟨-, hrest⟩ := List.cons.inj hcons
          rw [← hrest]; simp
      refine ⟨[old], rest, hcons, hmem, by omega, Or.inr ⟨old, rfl, by omega⟩, ?_⟩
      rw [show (insert v st.content).erase old = insert v st.content \ [old].toFinset by
        ext x; simp [and_comm]]
    · rename_i hnil
      simp at hnil
  · rename_i hshort
    refine ⟨[], st.order ++ [v], rfl, by simp, by omega, Or.inl rfl, ?_⟩
    rw [List.toFinset_nil, Finset.sdiff_empty]

omit [DecidableEq P] in
/-- New content of the leader is queued and forwarded. -/
theorem remembers_push (hcap : 1 ≤ cap) (h : Latched cap es cs) (hr : Remembers cap es cs st)
    {s : Sample V P} (hts : s.sourceTs = st.highWater) (hpub : s.publisher = st.leader)
    (hnew : s.content ∉ st.content) :
    Latched cap (es ++ [(s, false)]) cs ∧
      Remembers cap (es ++ [(s, false)]) cs (st.push cap s.content) := by
  have hfresh : s.content ∉ st.order := fun hm =>
    hnew (by rw [hr.content]; exact List.mem_toFinset.mpr hm)
  obtain ⟨gone, order, hsplit, hin, hlen, hgone, hpush⟩ := push_cases hr.bounded hcap s.content
  have hnodup : (gone ++ order).Nodup := by
    rw [← hsplit, List.nodup_append]
    refine ⟨hr.nodup, List.nodup_singleton _, fun a ha b hb => ?_⟩
    rw [List.mem_singleton.mp hb]
    exact fun he => hfresh (he ▸ ha)
  rw [hpush]
  refine ⟨h.emit (fun a ha => by rw [hts]; exact hr.below a ha) ⟨nofun, fun hall => ?_⟩
    (fun a ha he => by rw [hpub]; exact hr.leader a ha (by omega))
    (fun xs a ys heq he hc => ?_), ?_⟩
  · obtain ⟨a, ha, he⟩ := hr.opened
    exact absurd (he.trans hts.symm) (hall a ha)
  · rw [hts, ← hc]
    exact hr.evicted xs a ys heq (by omega) (by rw [hc]; exact hfresh)
  constructor
  · intro a ha
    rw [List.mem_append, List.mem_singleton] at ha
    rcases ha with ha | rfl
    · exact hr.below a ha
    · exact Nat.le_of_eq hts
  · obtain ⟨a, ha, he⟩ := hr.opened
    exact ⟨a, by simp [ha], he⟩
  · intro a ha he
    rw [List.mem_append, List.mem_singleton] at ha
    rcases ha with ha | rfl
    · exact hr.leader a ha he
    · exact hpub
  · exact hr.contested
  · -- what follows a content in the queue was emitted after it
    intro xs a ys heq he pre post horder x hx
    have horder' : st.order ++ [s.content] = (gone ++ pre) ++ a.1.content :: post := by
      rw [hsplit, show order = pre ++ a.1.content :: post from horder, List.append_assoc]
    rcases split_snoc heq with ⟨-, ha, -⟩ | ⟨ys', hys, hes⟩
    · rcases split_snoc horder' with ⟨hpost, -, -⟩ | ⟨post', -, hold⟩
      · rw [hpost] at hx; cases hx
      · rw [ha] at hold
        exact absurd (by rw [hold]; simp) hfresh
    · rcases split_snoc horder' with ⟨hpost, -, -⟩ | ⟨post', hpost, hold⟩
      · rw [hpost] at hx; cases hx
      · rw [hpost, List.mem_append, List.mem_singleton] at hx
        rw [hys]
        rcases hx with hx | rfl
        · exact mem_contentsAt_snoc (Or.inl (hr.queued xs a ys' hes he _ _ hold x hx))
        · exact mem_contentsAt_snoc (Or.inr ⟨hts, rfl⟩)
  · intro xs a ys heq he hmem
    have hmem' : a.1.content ∉ order := hmem
    rcases split_snoc heq with ⟨-, ha, -⟩ | ⟨ys', hys, hes⟩
    · exact absurd (by rw [ha]; exact hin) hmem'
    · rw [hys]
      by_cases hold : a.1.content ∈ st.order
      · -- it was evicted now: the queue behind it holds `cap` later contents
        have hg : a.1.content ∈ gone := by
          have : a.1.content ∈ gone ++ order := by rw [← hsplit]; simp [hold]
          exact (List.mem_append.mp this).resolve_right hmem'
        rcases hgone with hnil | ⟨old, hone, hfull⟩
        · rw [hnil] at hg; cases hg
        · rw [hone, List.mem_singleton] at hg
          have hall : ∀ x ∈ order, x ∈ contentsAt st.highWater (ys' ++ [(s, false)]) := by
            intro x hx
            have hcons : st.order ++ [s.content] = [] ++ a.1.content :: order := by
              rw [hsplit, hone, hg]; rfl
            rcases split_snoc hcons with ⟨hpost, -, -⟩ | ⟨post', hpost, hpre⟩
            · rw [hpost] at hx; cases hx
            · rw [hpost, List.mem_append, List.mem_singleton] at hx
              rcases hx with hx | rfl
              · exact mem_contentsAt_snoc (Or.inl (hr.queued xs a ys' hes he [] post' hpre x hx))
              · exact mem_contentsAt_snoc (Or.inr ⟨hts, rfl⟩)
          have hsub : order.toFinset ⊆
              (contentsAt st.highWater (ys' ++ [(s, false)])).toFinset.erase a.1.content := by
            intro x hx
            rw [List.mem_toFinset] at hx
            rw [Finset.mem_erase, List.mem_toFinset]
            exact ⟨fun hxe => hmem' (hxe ▸ hx), hall x hx⟩
          have hcard := Finset.card_le_card hsub
          rw [List.toFinset_card_of_nodup (List.nodup_append.mp hnodup).2.1, hfull] at hcard
          exact hcard
      · exact Nat.le_trans (hr.evicted xs a ys' hes he hold) (othersAt_snoc_le _ _ _ _ _)
  · show insert s.content st.content \ gone.toFinset = order.toFinset
    have hdisj : Disjoint gone.toFinset order.toFinset :=
      List.disjoint_toFinset_iff_disjoint.mpr (List.disjoint_of_nodup_append hnodup)
    rw [hr.content, ← List.toFinset_cons,
      show (s.content :: st.order).toFinset = (st.order ++ [s.content]).toFinset by
        ext x; simp, hsplit, List.toFinset_append, Finset.union_sdiff_left,
      Finset.sdiff_eq_self_of_disjoint hdisj.symm]
  · exact (List.nodup_append.mp hnodup).2.1
  · exact hlen

/-! ## Every run -/

/-- The history of a key and its tick state. -/
def TickInv (cap : Nat) (t : List (Sample V P × Admit P)) : Option (TickState V P) → Prop
  | none => t = []
  | some st => Latched cap (emissions t) (contests t) ∧ Remembers cap (emissions t) (contests t) st

/-- **One decision of a key extends its history.** -/
theorem TickInv.step (hcap : 1 ≤ cap) {t : List (Sample V P × Admit P)}
    {st : Option (TickState V P)} (s : Sample V P) (h : TickInv cap t st) :
    TickInv cap (t ++ [(s, (TickState.admitSample cap st s).2)]) (some (TickState.admitSample cap st s).1) := by
  have hes : ∀ a : Admit P, emissions (t ++ [(s, a)]) = emissions t ++ emissions [(s, a)] :=
    fun a => List.filterMap_append
  have hcs : ∀ a : Admit P, contests (t ++ [(s, a)]) = contests t ++ contests [(s, a)] :=
    fun a => List.filterMap_append
  unfold TickInv
  rw [hes, hcs]
  cases st with
  | none =>
    obtain rfl : t = [] := h
    exact remembers_opened hcap Latched.nil nofun nofun
  | some st =>
    obtain ⟨hl, hr⟩ := h
    unfold TickState.admitSample
    simp only
    split
    · simpa [emissions, contests] using And.intro hl hr
    · rename_i hpast
      split
      · rename_i hahead
        have hopen := remembers_opened hcap hl (s := s)
          (fun a ha => Nat.lt_of_le_of_lt (hr.below a ha) hahead)
          (fun c hc => Nat.lt_of_le_of_lt (hr.contested c hc).1 hahead)
        simpa [emissions, contests] using hopen
      · rename_i hahead
        have hts : s.sourceTs = st.highWater := by omega
        split
        · split
          · simpa [emissions, contests] using And.intro hl hr
          · rename_i _ hfirst
            have hcontest := remembers_contest hl hr hts (by simpa using hfirst)
            simpa [emissions, contests] using hcontest
        · rename_i hpub
          split
          · simpa [emissions, contests] using And.intro hl hr
          · rename_i hnew
            have hpush := remembers_push hcap hl hr hts (by simpa using hpub) hnew
            simpa [emissions, contests] using hpush

theorem tick_inv (hcap : 1 ≤ cap) (ss : List (Sample V P)) :
    TickInv cap ((tick cap).trace none ss) ((tick cap).exec none ss) :=
  Machine.history_rule (show TickInv cap [] none from rfl)
    (fun _ _ s h => TickInv.step hcap s h) ss

/-- The decisions of a run for one key. -/
abbrev decisions (cap : Nat) (key : K) (calls : List (StalenessFloor.Call K V P)) :
    List (Sample V P × Admit P) :=
  decisionsFor key (StalenessFloor.machine.trace (StalenessFloor.new cap) calls)

/-- **The latch-to-leader floor.** For every key that no reset names: the emissions never go back in
time; those at one `source_ts` come from one publisher and exactly one of them opened the tick; a tick
reports at most one contest; a content is emitted again at its tick only after `tick_cap` other ones;
the content set is the queue and holds at most `tick_cap` contents; and the decisions are those of the
key's own calls. -/
theorem latch_to_leader (cap : Nat) (hcap : 1 ≤ cap) (key : K)
    (calls : List (StalenessFloor.Call K V P))
    (hno : ∀ pred, .resetWhere pred ∈ calls → pred key = false) :
    ((emissions (decisions cap key calls)).Pairwise fun a b => a.1.sourceTs ≤ b.1.sourceTs) ∧
    (∀ a ∈ emissions (decisions cap key calls),
      (∃ o ∈ emissions (decisions cap key calls), o.1.sourceTs = a.1.sourceTs ∧ o.2 = true ∧
        o.1.publisher = a.1.publisher) ∧
      ((emissions (decisions cap key calls)).filter
        fun b => b.1.sourceTs == a.1.sourceTs && b.2).length = 1) ∧
    (∀ ts, ((contests (decisions cap key calls)).filter fun c => c.sourceTs == ts).length ≤ 1) ∧
    (∀ xs a ys b zs, emissions (decisions cap key calls) = xs ++ a :: ys ++ b :: zs →
      a.1.sourceTs = b.1.sourceTs → a.1.content = b.1.content →
      cap ≤ othersAt a.1.sourceTs a.1.content ys) ∧
    (∀ st, (StalenessFloor.machine.exec (StalenessFloor.new cap) calls).state.get key = some st →
      st.content = st.order.toFinset ∧ st.order.Nodup ∧ st.content.card ≤ cap) ∧
    decisions cap key calls = decisions cap key (callsFor key calls) := by
  obtain ⟨hd, hs⟩ := floor_run key calls (StalenessFloor.new cap) hno
  obtain ⟨hd', -⟩ := floor_run key (callsFor key calls) (StalenessFloor.new cap) fun pred hp => by
    simp [callsFor] at hp
  have hinv := tick_inv hcap (samplesFor key calls)
  have hl : Latched cap (emissions (decisions cap key calls)) (contests (decisions cap key calls)) := by
    show Latched cap (emissions (decisionsFor key _)) (contests (decisionsFor key _))
    rw [hd]
    show Latched cap (emissions ((tick cap).trace none _)) (contests ((tick cap).trace none _))
    cases hst : (tick cap).exec none (samplesFor key calls) with
    | none =>
      rw [hst] at hinv
      rw [show (tick cap).trace none (samplesFor key calls) = [] from hinv]
      exact Latched.nil
    | some st =>
      rw [hst] at hinv
      exact hinv.1
  refine ⟨hl.sorted, fun a ha => ⟨?_, hl.openedOnce a ha⟩, hl.contested, hl.repeated, ?_, ?_⟩
  · -- the one opening emission of the tick
    obtain ⟨o, ho⟩ := List.exists_mem_of_length_pos
      (Nat.lt_of_lt_of_eq Nat.zero_lt_one (hl.openedOnce a ha).symm)
    rw [List.mem_filter, Bool.and_eq_true, beq_iff_eq] at ho
    exact ⟨o, ho.1, ho.2.1, ho.2.2, hl.owner o ho.1 a ha ho.2.1⟩
  · intro st hst
    rw [hs] at hst
    have hst' : (tick cap).exec none (samplesFor key calls) = some st := hst
    rw [hst'] at hinv
    refine ⟨hinv.2.content, hinv.2.nodup, ?_⟩
    rw [hinv.2.content, List.toFinset_card_of_nodup hinv.2.nodup]
    exact hinv.2.bounded
  · show decisionsFor key _ = decisionsFor key _
    rw [hd, hd', callsFor, samplesFor_map_key]

/-- One tick of key `0`: its leader, a follower, the leader's next content and the first again. -/
def contestedCalls : List (StalenessFloor.Call Nat Nat Nat) :=
  [.admitSample 0 ⟨5, 10, 1, 100⟩, .admitSample 0 ⟨5, 10, 2, 130⟩, .resetWhere (· == 1),
    .admitSample 0 ⟨5, 11, 1, 140⟩, .admitSample 0 ⟨5, 10, 1, 150⟩]

theorem latch_to_leader_contested :
    emissions (decisions 1 0 contestedCalls) =
      [(⟨5, 10, 1, 100⟩, true), (⟨5, 11, 1, 140⟩, false), (⟨5, 10, 1, 150⟩, false)] ∧
    1 ≤ othersAt 5 10 ([(⟨5, 11, 1, 140⟩, false)] : List (Sample Nat Nat × Bool)) := by
  have hno : ∀ pred, StalenessFloor.Call.resetWhere pred ∈ contestedCalls → pred 0 = false := by
    intro pred hp
    simp only [contestedCalls, List.mem_cons, List.not_mem_nil, or_false, reduceCtorEq, false_or,
      StalenessFloor.Call.resetWhere.injEq] at hp
    rw [hp]; rfl
  have hes : emissions (decisions 1 0 contestedCalls) =
      [(⟨5, 10, 1, 100⟩, true), (⟨5, 11, 1, 140⟩, false), (⟨5, 10, 1, 150⟩, false)] := by decide
  exact ⟨hes, (latch_to_leader 1 (Nat.le_refl 1) 0 contestedCalls hno).2.2.2.1 []
    (⟨5, 10, 1, 100⟩, true) [(⟨5, 11, 1, 140⟩, false)] (⟨5, 10, 1, 150⟩, false) [] hes rfl rfl⟩

end EdgeConnect.Arbiter
