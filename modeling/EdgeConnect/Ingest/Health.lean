import EdgeConnect.Ingest.Reconcile

/-!
# Venue health (`src/ingest/health.rs`)

Executable model of the shared liveness of the receivers, of the guard through which a receiver task registers and
deregisters (`src/ingest/receiver.rs`), and of the tasks the reconciler aborts and spawns.

* `State`, `statusUpIn`, `withEdge` — the state behind the lock, the aggregate of a status key and the one place its
  edges are decided;
* `ReceiverTask`, `Act` — a task: the two critical sections of its registration, its watchdog and its end;
* `System`, `Step`, `machine` — a pass of `apply_feeds` is aborts and then spawns, each a step of its own, with the
  steps of any task between them; an aborted task acts until it is dropped.

`health_mirrors_receivers_iff` — the map is the tasks that are registered, in every state of a run, exactly when no
task leaves while another of its key is registered.  The published edges tell the aggregate in every run
(`Tells.step`).

The gauges, and the books and sources a stopped receiver leaves to the arbiter, are left out.
-/

set_option autoImplicit false

namespace EdgeConnect.Health

open Registry Reconcile

/-- `StatusKey`: a venue, and the Source ID a row of it declares. -/
abbrev StatusKey := String × Option Nat

def carriesVenueStatus : FeedKind → Bool
  | .topOfBook | .midpoint => true
  | .marketByOrder | .marketByPrice => false

/-- The state behind the lock of `FeedHealth`. -/
structure State where
  up : FinMap FeedKey Bool
  statusOf : FinMap FeedKey StatusKey
  carrierKeys : Finset StatusKey

def State.statusKey (s : State) (key : FeedKey) : StatusKey :=
  (s.statusOf.get key).getD (key.venue, none)

def statusUpIn (s : State) (status : StatusKey) : Bool :=
  let carrierUp := s.up.any fun key up => s.statusKey key = status && (carriesVenueStatus key.kind && up)
  let anyUp := s.up.any fun key up => s.statusKey key = status && up
  if status ∈ s.carrierKeys then carrierUp else anyUp

/-- The mutated state, and the aggregate of the key's status key if it flipped. -/
def withEdge (key : FeedKey) (mutate : State → State) (s : State) : State × Option Bool :=
  let status := s.statusKey key
  let was := statusUpIn s status
  let s := mutate s
  let now := statusUpIn s status
  (s, if was = now then none else some now)

/-- The first critical section of `register`. -/
def recordStatus (key : FeedKey) (sourceId : Option Nat) (s : State) : State :=
  { s with statusOf := s.statusOf.insert key (key.venue, sourceId) }

/-- The second critical section of `register`. -/
def register (key : FeedKey) (sourceId : Option Nat) : State → State × Option Bool :=
  withEdge key fun s =>
    { s with
      up := s.up.insert key true
      carrierKeys :=
        if carriesVenueStatus key.kind then insert (key.venue, sourceId) s.carrierKeys else s.carrierKeys }

def deregister (key : FeedKey) : State → State × Option Bool :=
  withEdge key fun s => { s with up := s.up.erase key }

def set (key : FeedKey) (up : Bool) : State → State × Option Bool :=
  withEdge key fun s => { s with up := s.up.insert key up }

/-! ## The receiver tasks -/

/-- How far a task is with its registration.  `last` is what it last set. -/
inductive Phase where
  | spawned
  | recorded
  | registered (last : Bool)
  deriving DecidableEq, Repr

structure ReceiverTask where
  key : FeedKey
  sourceId : Option Nat
  phase : Phase
  deriving DecidableEq, Repr

/-- What a task does to the shared liveness.  It ends after an abort, on its own or by a panic. -/
inductive Act where
  | record
  | register
  | edge (up : Bool)
  | drop

/-- What an act tells: who registered, and the edge published. -/
structure Told where
  registered : Option FeedKey
  edge : Option (StatusKey × Bool)

def silent : Told := ⟨none, none⟩

/-- `emit_status`, under the registration's status key. -/
def ReceiverTask.tell (task : ReceiverTask) (registered : Option FeedKey) (edge : Option Bool) : Told :=
  ⟨registered, edge.map fun up => ((task.key.venue, task.sourceId), up)⟩

/-- The task after an act, if it still runs.  An act out of turn does nothing: a task registers once, and its watchdog
sets on an edge only. -/
def ReceiverTask.act (task : ReceiverTask) (h : State) (a : Act) : Option ReceiverTask × State × Told :=
  match a, task.phase with
  | .record, .spawned =>
    (some { task with phase := .recorded }, recordStatus task.key task.sourceId h, silent)
  | .register, .recorded =>
    let r := Health.register task.key task.sourceId h
    (some { task with phase := .registered true }, r.1, task.tell (some task.key) r.2)
  | .edge up, .registered last =>
    if up = last then (some task, h, silent)
    else
      let r := set task.key up h
      (some { task with phase := .registered up }, r.1, task.tell none r.2)
  | .drop, .registered _ =>
    let r := deregister task.key h
    (none, r.1, task.tell none r.2)
  | .drop, _ => (none, h, silent)
  | _, _ => (some task, h, silent)

/-! ## The tasks and the reconciler -/

/-- The tasks that have not been dropped, under the number they were spawned with, and the reconciler's handles. -/
structure System where
  health : State
  tasks : FinMap Nat ReceiverTask
  spawned : Nat
  active : FinMap FeedKey Nat

inductive Step where
  | abort (key : FeedKey)
  | spawn (key : FeedKey)
  | reap (key : FeedKey)
  | run (id : Nat) (a : Act)

def System.replace (s : System) (id : Nat) : Option ReceiverTask → FinMap Nat ReceiverTask
  | some task => s.tasks.insert id task
  | none => s.tasks.erase id

variable (enabled : List Feed)

def step (s : System) : Step → System × Told
  | .abort key => ({ s with active := s.active.erase key }, silent)
  | .spawn key =>
    match publisherOf enabled key with
    | some (feed, _) =>
      if s.active.contains key then (s, silent)
      else
        ({ s with
            tasks := s.tasks.insert s.spawned ⟨key, feed.sourceId, .spawned⟩
            spawned := s.spawned + 1
            active := s.active.insert key s.spawned }, silent)
    | none => (s, silent)
  | .reap key =>
    -- `reap_finished`: a handle whose task is gone.
    if (s.active.get key).any fun id => !s.tasks.contains id then
      ({ s with active := s.active.erase key }, silent)
    else (s, silent)
  | .run id a =>
    match s.tasks.get id with
    | some task =>
      let r := task.act s.health a
      ({ s with health := r.2.1, tasks := s.replace id r.1 }, r.2.2)
    | none => (s, silent)

def machine : Machine System Step Told := ⟨step enabled⟩

def start : System := ⟨⟨∅, ∅, ∅⟩, ∅, 0, ∅⟩

/-! ## What health is to say -/

/-- The status key of a receiver, by its row. -/
def statusKeyOf (key : FeedKey) : StatusKey :=
  (key.venue, (publisherOf enabled key).bind fun x => x.1.sourceId)

/-- A key is up or down exactly while a task of it is registered, with the value that task last set. -/
structure Mirrors (s : System) : Prop where
  running : ∀ key v, s.health.up.get key = some v →
    ∃ id task, s.tasks.get id = some task ∧ task.key = key ∧ task.phase = .registered v
  known : ∀ id task v, s.tasks.get id = some task → task.phase = .registered v →
    s.health.up.contains task.key = true

/-- The edges a run published under a status key, in order. -/
def edgesOf (t : List (Step × Told)) (status : StatusKey) : List Bool :=
  t.filterMap fun e => e.2.edge.bind fun x => if x.1 = status then some x.2 else none

/-- A quote-bearing receiver has registered under the status key. -/
def EverCarried (t : List (Step × Told)) (status : StatusKey) : Prop :=
  ∃ e ∈ t, ∃ key, e.2.registered = some key ∧ carriesVenueStatus key.kind = true ∧ statusKeyOf enabled key = status

/-- Some receiver of the status key is up: a quote-bearing one once one has registered. -/
def Serving (t : List (Step × Told)) (s : System) (status : StatusKey) : Prop :=
  ∃ key, s.health.up.get key = some true ∧ statusKeyOf enabled key = status ∧
    (EverCarried enabled t status → carriesVenueStatus key.kind = true)

/-- Edges that start with up, alternate, and end with `now`. -/
def Alternating (edges : List Bool) (now : Bool) : Prop :=
  (false :: edges).IsChain (· ≠ ·) ∧ edges.getLast?.getD false = now

/-- A registered task ends only while no other task of its key is registered. -/
def EndsAlone (s : System) : Step → Prop
  | .run id .drop => ∀ task other last task' last', s.tasks.get id = some task → task.phase = .registered last →
      other ≠ id → s.tasks.get other = some task' → task'.phase = .registered last' → task'.key ≠ task.key
  | _ => True

/-! ## The aggregate -/

variable {enabled}

theorem statusUpIn_iff {s : State} {status : StatusKey} :
    statusUpIn s status = true ↔ ∃ key, s.up.get key = some true ∧ s.statusKey key = status ∧
      (status ∈ s.carrierKeys → carriesVenueStatus key.kind = true) := by
  unfold statusUpIn
  dsimp only
  split_ifs with hcarrier
  · simp only [FinMap.any_eq_true, Bool.and_eq_true, decide_eq_true_eq, hcarrier, true_imp_iff]
    constructor
    · rintro ⟨key, up, hget, hstatus, hkind, rfl⟩
      exact ⟨key, hget, hstatus, hkind⟩
    · rintro ⟨key, hget, hstatus, hkind⟩
      exact ⟨key, true, hget, hstatus, hkind, rfl⟩
  · simp [FinMap.any_eq_true, hcarrier, and_comm]

/-- The aggregate reads the receivers that are up under the status key, and whether a quote-bearing one has ever
been. -/
theorem statusUpIn_congr {s s' : State} {status : StatusKey}
    (hup : ∀ key, s'.up.get key = some true ∧ s'.statusKey key = status ↔
      s.up.get key = some true ∧ s.statusKey key = status)
    (hcarrier : status ∈ s'.carrierKeys ↔ status ∈ s.carrierKeys) :
    statusUpIn s' status = statusUpIn s status := by
  rw [Bool.eq_iff_iff, statusUpIn_iff, statusUpIn_iff]
  refine exists_congr fun key => ?_
  rw [← and_assoc, ← and_assoc, hup, hcarrier]

theorem Alternating.snoc {edges : List Bool} {was now : Bool} (h : Alternating edges was) (hne : was ≠ now) :
    Alternating (edges ++ [now]) now := by
  obtain ⟨hchain, hlast⟩ := h
  refine ⟨?_, by rw [List.getLast?_append_of_ne_nil _ (by simp)]; rfl⟩
  rw [← List.cons_append, List.isChain_append]
  refine ⟨hchain, List.isChain_singleton now, fun x hx y hy => ?_⟩
  obtain rfl : now = y := by simpa using hy
  rw [List.getLast?_cons, Option.mem_some_iff, hlast] at hx
  exact hx ▸ hne

theorem withEdge_fst (key : FeedKey) (mutate : State → State) (s : State) :
    (withEdge key mutate s).1 = mutate s := rfl

/-- An edge is published exactly when the aggregate of the key's status key flips. -/
theorem withEdge_alternating {key : FeedKey} {mutate : State → State} {s : State} {edges : List Bool}
    (h : Alternating edges (statusUpIn s (s.statusKey key))) :
    Alternating (edges ++ (withEdge key mutate s).2.toList) (statusUpIn (mutate s) (s.statusKey key)) := by
  unfold withEdge
  dsimp only
  split_ifs with hsame
  · rw [Option.toList_none, List.append_nil, ← hsame]
    exact h
  · exact h.snoc hsame

/-! ## The acts -/

/-- What an act can do. -/
theorem act_cases (task : ReceiverTask) (h : State) (a : Act) :
    task.act h a = (some task, h, silent) ∨
    (a = .record ∧ task.phase = .spawned ∧
      task.act h a = (some { task with phase := .recorded }, recordStatus task.key task.sourceId h, silent)) ∨
    (a = .register ∧ task.phase = .recorded ∧
      task.act h a = (some { task with phase := .registered true }, (register task.key task.sourceId h).1,
        task.tell (some task.key) (register task.key task.sourceId h).2)) ∨
    (∃ up last, a = .edge up ∧ task.phase = .registered last ∧
      task.act h a = (some { task with phase := .registered up }, (set task.key up h).1,
        task.tell none (set task.key up h).2)) ∨
    (∃ last, a = .drop ∧ task.phase = .registered last ∧
      task.act h a = (none, (deregister task.key h).1, task.tell none (deregister task.key h).2)) ∨
    (a = .drop ∧ (∀ last, task.phase ≠ .registered last) ∧ task.act h a = (none, h, silent)) := by
  unfold ReceiverTask.act
  cases a <;> cases hphase : task.phase <;> simp
  case edge.registered up last =>
    by_cases heq : up = last
    · exact .inl fun hne => absurd heq hne
    · exact .inr fun h' => absurd h' heq

/-! ## What every run keeps -/

variable (enabled) in
/-- A status key recorded for a receiver is its row's, and is recorded before the receiver is up. -/
structure Known (s : System) : Prop where
  fresh : ∀ id task, s.tasks.get id = some task → id < s.spawned
  source : ∀ id task, s.tasks.get id = some task → (task.key.venue, task.sourceId) = statusKeyOf enabled task.key
  statusOf : ∀ key status, s.health.statusOf.get key = some status → status = statusKeyOf enabled key
  up : ∀ key, s.health.up.contains key = true → s.health.statusOf.contains key = true
  recorded : ∀ id task, s.tasks.get id = some task → task.phase ≠ .spawned →
    s.health.statusOf.contains task.key = true

theorem Known.statusKey {s : System} (h : Known enabled s) {key : FeedKey}
    (hkey : s.health.statusOf.contains key = true) : s.health.statusKey key = statusKeyOf enabled key := by
  obtain ⟨status, hget⟩ := FinMap.contains_eq_true.mp hkey
  rw [State.statusKey, hget, Option.getD_some]
  exact h.statusOf key status hget

/-- The status keys stay what they are as receivers come, change and go. -/
structure SameStatus (key : FeedKey) (h h' : State) : Prop where
  statusOf : h'.statusOf = h.statusOf
  up : ∀ k, k ≠ key → h'.up.get k = h.up.get k
  carriers : ∀ status, status ≠ h.statusKey key → (status ∈ h'.carrierKeys ↔ status ∈ h.carrierKeys)

theorem SameStatus.statusKey {key : FeedKey} {h h' : State} (hs : SameStatus key h h') (k : FeedKey) :
    h'.statusKey k = h.statusKey k := by
  rw [State.statusKey, State.statusKey, hs.statusOf]

/-- A receiver moves the aggregate of its own status key alone. -/
theorem SameStatus.statusUpIn {key : FeedKey} {h h' : State} (hs : SameStatus key h h') {status : StatusKey}
    (hne : status ≠ h.statusKey key) : statusUpIn h' status = Health.statusUpIn h status := by
  refine statusUpIn_congr (fun k => ?_) (hs.carriers status hne)
  rw [hs.statusKey]
  refine and_congr_left fun hk => ?_
  rw [hs.up k fun heq => hne (by rw [← hk, heq])]

theorem sameStatus_set (key : FeedKey) (up : Bool) (h : State) : SameStatus key h (set key up h).1 :=
  ⟨rfl, fun _ hk => FinMap.get_insert_of_ne _ _ hk, fun _ _ => Iff.rfl⟩

theorem sameStatus_deregister (key : FeedKey) (h : State) : SameStatus key h (deregister key h).1 :=
  ⟨rfl, fun _ hk => FinMap.get_erase_of_ne _ hk, fun _ _ => Iff.rfl⟩

theorem carrierKeys_register (key : FeedKey) (sourceId : Option Nat) (h : State) (status : StatusKey) :
    status ∈ (register key sourceId h).1.carrierKeys ↔
      status ∈ h.carrierKeys ∨ (carriesVenueStatus key.kind = true ∧ (key.venue, sourceId) = status) := by
  rw [register, withEdge_fst]
  dsimp only
  split_ifs with hkind
  · rw [Finset.mem_insert, or_comm, eq_comm]
    simp [hkind]
  · simp [hkind]

theorem sameStatus_register {key : FeedKey} {sourceId : Option Nat} {h : State}
    (hstatus : h.statusKey key = (key.venue, sourceId)) : SameStatus key h (register key sourceId h).1 := by
  refine ⟨rfl, fun _ hk => FinMap.get_insert_of_ne _ _ hk, fun status hne => ?_⟩
  rw [carrierKeys_register, ← hstatus]
  exact or_iff_left fun hnew => hne hnew.2.symm

/-! ## The published edges -/

theorem edgesOf_snoc (t : List (Step × Told)) (e : Step × Told) (status : StatusKey) :
    edgesOf (t ++ [e]) status =
      edgesOf t status ++ (e.2.edge.bind fun x => if x.1 = status then some x.2 else none).toList := by
  rw [edgesOf, List.filterMap_append]
  cases hedge : e.2.edge.bind fun x => if x.1 = status then some x.2 else none with
  | none => simp [edgesOf, hedge]
  | some up => simp [edgesOf, hedge]

theorem tell_edge (task : ReceiverTask) (registered : Option FeedKey) (edge : Option Bool) (status : StatusKey) :
    ((task.tell registered edge).edge.bind fun x => if x.1 = status then some x.2 else none) =
      if (task.key.venue, task.sourceId) = status then edge else none := by
  cases edge <;> simp [ReceiverTask.tell]

theorem everCarried_snoc (t : List (Step × Told)) (e : Step × Told) (status : StatusKey) :
    EverCarried enabled (t ++ [e]) status ↔ EverCarried enabled t status ∨
      ∃ key, e.2.registered = some key ∧ carriesVenueStatus key.kind = true ∧ statusKeyOf enabled key = status := by
  unfold EverCarried
  simp [or_and_right, exists_or]

variable (enabled) in
/-- The published edges of every status key alternate from up and end with its aggregate, and its quote-bearing
receivers are remembered. -/
structure Tells (t : List (Step × Told)) (h : State) : Prop where
  carriers : ∀ status, status ∈ h.carrierKeys ↔ EverCarried enabled t status
  edges : ∀ status, Alternating (edgesOf t status) (statusUpIn h status)

theorem Tells.quiet {t : List (Step × Told)} {h h' : State} (ht : Tells enabled t h) (i : Step)
    (hcarriers : h'.carrierKeys = h.carrierKeys)
    (haggregate : ∀ status, statusUpIn h' status = statusUpIn h status) :
    Tells enabled (t ++ [(i, silent)]) h' := by
  constructor
  · intro status
    rw [hcarriers, ht.carriers, everCarried_snoc]
    simp [silent]
  · intro status
    rw [edgesOf_snoc, haggregate]
    simpa [silent] using ht.edges status

/-- What is published in a critical section keeps the edges telling the aggregate. -/
theorem Tells.edge {t : List (Step × Told)} {h : State} {task : ReceiverTask} {mutate : State → State}
    {registered : Option FeedKey} (ht : Tells enabled t h) (i : Step)
    (hkey : h.statusKey task.key = (task.key.venue, task.sourceId))
    (hsame : SameStatus task.key h (mutate h))
    (hcarriers : ∀ status, status ∈ (mutate h).carrierKeys ↔ status ∈ h.carrierKeys ∨
      ∃ key, registered = some key ∧ carriesVenueStatus key.kind = true ∧ statusKeyOf enabled key = status) :
    Tells enabled (t ++ [(i, task.tell registered (withEdge task.key mutate h).2)]) (mutate h) := by
  constructor
  · intro status
    rw [hcarriers, ht.carriers, everCarried_snoc]
    rfl
  · intro status
    rw [edgesOf_snoc, tell_edge, ← hkey]
    split_ifs with hstatus
    · subst hstatus
      exact withEdge_alternating (ht.edges _)
    · rw [hsame.statusUpIn (Ne.symm hstatus), Option.toList_none, List.append_nil]
      exact ht.edges status

/-! ## One step -/

theorem get_replace (s : System) (id : Nat) (t' : Option ReceiverTask) (other : Nat) :
    (s.replace id t').get other = if other = id then t' else s.tasks.get other := by
  cases t' <;> rfl

/-- An act leaves a task what it is. -/
theorem act_same {task task' : ReceiverTask} {h : State} {a : Act} (hact : (task.act h a).1 = some task') :
    task'.key = task.key ∧ task'.sourceId = task.sourceId := by
  obtain h' | ⟨-, -, h'⟩ | ⟨-, -, h'⟩ | ⟨_, _, -, -, h'⟩ | ⟨_, -, -, h'⟩ | ⟨-, -, h'⟩ := act_cases task h a <;>
    rw [h'] at hact <;> cases hact <;> exact ⟨rfl, rfl⟩

/-- A status key is recorded by `record` alone. -/
theorem act_statusOf (task : ReceiverTask) (h : State) (a : Act) :
    (task.act h a).2.1.statusOf = h.statusOf ∨
      (task.act h a).2.1.statusOf = h.statusOf.insert task.key (task.key.venue, task.sourceId) := by
  obtain h' | ⟨-, -, h'⟩ | ⟨-, -, h'⟩ | ⟨_, _, -, -, h'⟩ | ⟨_, -, -, h'⟩ | ⟨-, -, h'⟩ := act_cases task h a <;>
    rw [h']
  case inr.inl => exact .inr rfl
  all_goals exact .inl rfl

theorem act_statusOf_contains {task : ReceiverTask} {h : State} {a : Act} {key : FeedKey}
    (hkey : h.statusOf.contains key = true) : (task.act h a).2.1.statusOf.contains key = true := by
  obtain h' | h' := act_statusOf task h a <;> rw [h']
  · exact hkey
  · rw [FinMap.contains, FinMap.get_insert]
    split_ifs
    · rfl
    · exact hkey

/-- Only a task past `record` touches the map. -/
theorem act_up {task : ReceiverTask} {h : State} {a : Act} {key : FeedKey}
    (hkey : (task.act h a).2.1.up.contains key = true) :
    h.up.contains key = true ∨ (key = task.key ∧ task.phase ≠ .spawned) := by
  by_cases heq : key = task.key
  · obtain h' | ⟨-, -, h'⟩ | ⟨-, hphase, h'⟩ | ⟨_, _, -, hphase, h'⟩ | ⟨_, -, hphase, h'⟩ | ⟨-, -, h'⟩ :=
      act_cases task h a
    all_goals rw [h'] at hkey
    · exact .inl hkey
    · exact .inl hkey
    · exact .inr ⟨heq, by rw [hphase]; nofun⟩
    · exact .inr ⟨heq, by rw [hphase]; nofun⟩
    · exact .inr ⟨heq, by rw [hphase]; nofun⟩
    · exact .inl hkey
  · left
    obtain h' | ⟨-, -, h'⟩ | ⟨-, -, h'⟩ | ⟨_, _, -, -, h'⟩ | ⟨_, -, -, h'⟩ | ⟨-, -, h'⟩ := act_cases task h a <;>
      rw [h'] at hkey
    · exact hkey
    · exact hkey
    · rwa [FinMap.contains, register, withEdge_fst, FinMap.get_insert_of_ne _ _ heq] at hkey
    · rwa [FinMap.contains, set, withEdge_fst, FinMap.get_insert_of_ne _ _ heq] at hkey
    · rwa [FinMap.contains, deregister, withEdge_fst, FinMap.get_erase_of_ne _ heq] at hkey
    · exact hkey

/-- A task past `record` after an act was past it before, or the act recorded its status key. -/
theorem act_recorded {task task' : ReceiverTask} {h : State} {a : Act} (hact : (task.act h a).1 = some task')
    (hphase : task'.phase ≠ .spawned) :
    task.phase ≠ .spawned ∨ (task.act h a).2.1.statusOf.contains task.key = true := by
  obtain h' | ⟨-, -, h'⟩ | ⟨-, hp, h'⟩ | ⟨_, _, -, hp, h'⟩ | ⟨_, -, hp, h'⟩ | ⟨-, -, h'⟩ := act_cases task h a <;>
    rw [h'] at hact ⊢ <;> cases hact
  · exact .inl hphase
  · refine .inr (FinMap.contains_eq_true.mpr ⟨_, FinMap.get_insert_self _ _ _⟩)
  · exact .inl (by rw [hp]; nofun)
  · exact .inl (by rw [hp]; nofun)

theorem step_run {s : System} {id : Nat} {task : ReceiverTask} (hget : s.tasks.get id = some task) (a : Act) :
    step enabled s (.run id a) =
      ({ s with health := (task.act s.health a).2.1, tasks := s.replace id (task.act s.health a).1 },
        (task.act s.health a).2.2) := by
  rw [step, hget]

variable (enabled) in
/-- What a step of the reconciler can do. -/
theorem step_cases (s : System) (i : Step) :
    (∃ id a task, i = .run id a ∧ s.tasks.get id = some task) ∨
    (step enabled s i).2 = silent ∧ (step enabled s i).1.health = s.health ∧
      ((step enabled s i).1.tasks = s.tasks ∧ (step enabled s i).1.spawned = s.spawned ∨
        ∃ key feed publisher, publisherOf enabled key = some (feed, publisher) ∧
          (step enabled s i).1.tasks = s.tasks.insert s.spawned ⟨key, feed.sourceId, .spawned⟩ ∧
          (step enabled s i).1.spawned = s.spawned + 1) := by
  cases i with
  | abort key => exact .inr ⟨rfl, rfl, .inl ⟨rfl, rfl⟩⟩
  | spawn key =>
    dsimp only [step]
    cases hrow : publisherOf enabled key with
    | none => exact .inr ⟨rfl, rfl, .inl ⟨rfl, rfl⟩⟩
    | some row =>
      obtain ⟨feed, publisher⟩ := row
      dsimp only
      split_ifs with hactive
      · exact .inr ⟨rfl, rfl, .inl ⟨rfl, rfl⟩⟩
      · exact .inr ⟨rfl, rfl, .inr ⟨key, feed, publisher, hrow, rfl, rfl⟩⟩
  | reap key =>
    dsimp only [step]
    split_ifs with hgone
    · exact .inr ⟨rfl, rfl, .inl ⟨rfl, rfl⟩⟩
    · exact .inr ⟨rfl, rfl, .inl ⟨rfl, rfl⟩⟩
  | run id a =>
    cases hget : s.tasks.get id with
    | some task => exact .inl ⟨id, a, task, rfl, hget⟩
    | none =>
      dsimp only [step]
      rw [hget]
      exact .inr ⟨rfl, rfl, .inl ⟨rfl, rfl⟩⟩

theorem Known.step {s : System} (h : Known enabled s) (i : Step) : Known enabled (step enabled s i).1 := by
  obtain ⟨id, a, task, rfl, hget⟩ | ⟨-, hhealth, ⟨htasks, hspawned⟩ | ⟨key, feed, publisher, hrow, htasks, hspawned⟩⟩ :=
    step_cases enabled s i
  · rw [step_run hget]
    have hkept : ∀ other task', (s.replace id (task.act s.health a).1).get other = some task' →
        ∃ before, s.tasks.get other = some before ∧ task'.key = before.key ∧ task'.sourceId = before.sourceId := by
      intro other task' hother
      rw [get_replace] at hother
      split_ifs at hother with heq
      · exact ⟨task, heq ▸ hget, act_same hother⟩
      · exact ⟨task', hother, rfl, rfl⟩
    constructor
    · intro other task' hother
      obtain ⟨before, hbefore, -⟩ := hkept other task' hother
      exact h.fresh other before hbefore
    · intro other task' hother
      obtain ⟨before, hbefore, hkey, hsource⟩ := hkept other task' hother
      rw [hkey, hsource]
      exact h.source other before hbefore
    · intro key status hstatus
      dsimp only at hstatus
      obtain h' | h' := act_statusOf task s.health a <;> rw [h'] at hstatus
      · exact h.statusOf key status hstatus
      · rw [FinMap.get_insert] at hstatus
        split_ifs at hstatus with heq
        · cases hstatus
          rw [heq]
          exact h.source id task hget
        · exact h.statusOf key status hstatus
    · intro key hkey
      obtain hkey | ⟨rfl, hphase⟩ := act_up hkey
      · exact act_statusOf_contains (h.up key hkey)
      · exact act_statusOf_contains (h.recorded id task hget hphase)
    · intro other task' hother hphase
      dsimp only at hother
      rw [get_replace] at hother
      split_ifs at hother with heq
      · rw [(act_same hother).1]
        obtain hbefore | hnow := act_recorded hother hphase
        · exact act_statusOf_contains (h.recorded id task hget hbefore)
        · exact hnow
      · exact act_statusOf_contains (h.recorded other task' hother hphase)
  · refine ⟨?_, ?_, ?_, ?_, ?_⟩
    · rw [htasks, hspawned]
      exact h.fresh
    · rw [htasks]
      exact h.source
    · rw [hhealth]
      exact h.statusOf
    · rw [hhealth]
      exact h.up
    · rw [htasks, hhealth]
      exact h.recorded
  · refine ⟨?_, ?_, ?_, ?_, ?_⟩
    · intro id task hget
      rw [htasks, FinMap.get_insert] at hget
      rw [hspawned]
      split_ifs at hget with heq
      · omega
      · exact Nat.lt_succ_of_lt (h.fresh id task hget)
    · intro id task hget
      rw [htasks, FinMap.get_insert] at hget
      split_ifs at hget with heq
      · cases hget
        rw [statusKeyOf, hrow, Option.bind_some]
      · exact h.source id task hget
    · rw [hhealth]
      exact h.statusOf
    · rw [hhealth]
      exact h.up
    · intro id task hget hphase
      rw [htasks, FinMap.get_insert] at hget
      rw [hhealth]
      split_ifs at hget with heq
      · cases hget
        exact absurd rfl hphase
      · exact h.recorded id task hget hphase

/-- Recording a status key again moves no aggregate. -/
theorem Known.statusUpIn_recordStatus {s : System} (h : Known enabled s) {id : Nat} {task : ReceiverTask}
    (hget : s.tasks.get id = some task) (status : StatusKey) :
    statusUpIn (recordStatus task.key task.sourceId s.health) status = statusUpIn s.health status := by
  refine statusUpIn_congr (fun key => and_congr_right fun hup => ?_) Iff.rfl
  have hkey := h.statusKey (h.up key (FinMap.contains_eq_true.mpr ⟨true, hup⟩))
  rw [hkey, State.statusKey, recordStatus, FinMap.get_insert]
  split_ifs with heq
  · rw [Option.getD_some, h.source id task hget, heq]
  · rw [← State.statusKey, hkey]

theorem Tells.step {t : List (Step × Told)} {s : System} (hs : Known enabled s) (ht : Tells enabled t s.health)
    (i : Step) : Tells enabled (t ++ [(i, (step enabled s i).2)]) (step enabled s i).1.health := by
  obtain ⟨id, a, task, rfl, hget⟩ | ⟨hsilent, hhealth, -⟩ := step_cases enabled s i
  · rw [step_run hget]
    have hkey : task.phase ≠ .spawned → s.health.statusKey task.key = (task.key.venue, task.sourceId) := fun hphase => by
      rw [hs.statusKey (hs.recorded id task hget hphase), hs.source id task hget]
    obtain h' | ⟨-, -, h'⟩ | ⟨-, hphase, h'⟩ | ⟨up, last, -, hphase, h'⟩ | ⟨last, -, hphase, h'⟩ | ⟨-, -, h'⟩ :=
      act_cases task s.health a
    all_goals rw [h']
    · exact ht.quiet _ rfl fun _ => rfl
    · exact ht.quiet _ rfl (hs.statusUpIn_recordStatus hget)
    · have hkey := hkey (by rw [hphase]; nofun)
      refine ht.edge _ hkey (sameStatus_register hkey) fun status => ?_
      exact (carrierKeys_register task.key task.sourceId s.health status).trans
        (or_congr_right (by simp [← hs.source id task hget]))
    · exact ht.edge _ (hkey (by rw [hphase]; nofun)) (sameStatus_set task.key up s.health) fun status => by
        simp
    · exact ht.edge _ (hkey (by rw [hphase]; nofun)) (sameStatus_deregister task.key s.health) fun status => by
        simp
    · exact ht.quiet _ rfl fun _ => rfl
  · rw [hsilent, hhealth]
    exact ht.quiet _ rfl fun _ => rfl

/-! ## The map against the tasks -/

/-- A task that is not registered may come and go, and a task may register or set at any time. -/
theorem Mirrors.put {s : System} (h : Mirrors s) {id : Nat} {task task' : ReceiverTask} {up : Bool} {h' : State}
    (hget : s.tasks.get id = some task) (hkey : task'.key = task.key) (hphase : task'.phase = .registered up)
    (hup : h'.up = s.health.up.insert task.key up) :
    Mirrors { s with health := h', tasks := s.replace id (some task') } := by
  constructor
  · intro key v hv
    dsimp only at hv ⊢
    rw [hup, FinMap.get_insert] at hv
    split_ifs at hv with heq
    · cases hv
      refine ⟨id, task', by rw [get_replace, if_pos rfl], hkey.trans heq.symm, hphase⟩
    · obtain ⟨other, before, hbefore, hbkey, hbphase⟩ := h.running key v hv
      refine ⟨other, before, ?_, hbkey, hbphase⟩
      rw [get_replace, if_neg, hbefore]
      rintro rfl
      rw [hget] at hbefore
      cases hbefore
      exact heq hbkey.symm
  · intro other before v hbefore hbphase
    dsimp only at hbefore ⊢
    rw [hup, FinMap.contains, FinMap.get_insert]
    rw [get_replace] at hbefore
    split_ifs with heq
    · rfl
    · split_ifs at hbefore with hid
      · cases hbefore
        exact absurd hkey heq
      · exact h.known other before v hbefore hbphase

theorem Mirrors.unregistered {s : System} (h : Mirrors s) {id : Nat} {t' : Option ReceiverTask} {h' : State}
    (hbefore : ∀ task last, s.tasks.get id = some task → task.phase ≠ .registered last)
    (hafter : ∀ task last, t' = some task → task.phase ≠ .registered last) (hup : h'.up = s.health.up) :
    Mirrors { s with health := h', tasks := s.replace id t' } := by
  constructor
  · intro key v hv
    dsimp only at hv ⊢
    rw [hup] at hv
    obtain ⟨other, task, hget, hkey, hphase⟩ := h.running key v hv
    refine ⟨other, task, ?_, hkey, hphase⟩
    rw [get_replace, if_neg, hget]
    rintro rfl
    exact hbefore task v hget hphase
  · intro other task v hget hphase
    dsimp only at hget ⊢
    rw [get_replace] at hget
    rw [hup]
    split_ifs at hget with hid
    · exact absurd hphase (hafter task v hget)
    · exact h.known other task v hget hphase

theorem Mirrors.leave {s : System} (h : Mirrors s) {id : Nat} {task : ReceiverTask} {last : Bool} {h' : State}
    (hget : s.tasks.get id = some task) (hphase : task.phase = .registered last) (halone : EndsAlone s (.run id .drop))
    (hup : h'.up = s.health.up.erase task.key) :
    Mirrors { s with health := h', tasks := s.replace id none } := by
  constructor
  · intro key v hv
    dsimp only at hv ⊢
    rw [hup, FinMap.get_erase] at hv
    split_ifs at hv with heq
    obtain ⟨other, before, hbefore, hbkey, hbphase⟩ := h.running key v hv
    refine ⟨other, before, ?_, hbkey, hbphase⟩
    rw [get_replace, if_neg, hbefore]
    rintro rfl
    rw [hget] at hbefore
    cases hbefore
    exact heq hbkey.symm
  · intro other before v hbefore hbphase
    dsimp only at hbefore ⊢
    rw [get_replace] at hbefore
    split_ifs at hbefore with hid
    have hne := halone task other last before v hget hphase hid hbefore hbphase
    rw [hup, FinMap.contains, FinMap.get_erase_of_ne _ hne]
    exact h.known other before v hbefore hbphase

theorem Mirrors.step {s : System} (hs : Known enabled s) (h : Mirrors s) {i : Step} (halone : EndsAlone s i) :
    Mirrors (step enabled s i).1 := by
  obtain ⟨id, a, task, rfl, hget⟩ | ⟨-, hhealth, ⟨htasks, -⟩ | ⟨key, feed, publisher, -, htasks, -⟩⟩ :=
    step_cases enabled s i
  · rw [step_run hget]
    have hthis : ∀ task' last, s.tasks.get id = some task' → (∀ l, task.phase ≠ .registered l) →
        task'.phase ≠ .registered last := fun task' last hget' hphase => by
      rw [hget] at hget'
      cases hget'
      exact hphase last
    obtain h' | ⟨-, hphase, h'⟩ | ⟨-, hphase, h'⟩ | ⟨up, last, -, hphase, h'⟩ | ⟨last, rfl, hphase, h'⟩ |
      ⟨-, hphase, h'⟩ := act_cases task s.health a
    all_goals rw [h']
    · have hsame : s.replace id (some task) = s.tasks := FinMap.insert_of_get s.tasks hget
      dsimp only
      rw [hsame]
      exact h
    · exact h.unregistered (fun task' last hget' => hthis task' last hget' (by rw [hphase]; nofun))
        (fun task' last heq => by cases heq; nofun) rfl
    · exact h.put hget rfl rfl rfl
    · exact h.put hget rfl rfl rfl
    · exact h.leave hget hphase halone rfl
    · exact h.unregistered (fun task' last hget' => hthis task' last hget' hphase) (fun _ _ heq => by cases heq) rfl
  · exact ⟨by rw [hhealth, htasks]; exact h.running, by rw [hhealth, htasks]; exact h.known⟩
  · have hfresh : s.tasks.get s.spawned = none := by
      cases hget : s.tasks.get s.spawned with
      | none => rfl
      | some task => exact absurd (hs.fresh _ task hget) (lt_irrefl _)
    constructor
    · intro k v hv
      rw [hhealth] at hv
      obtain ⟨other, task, hget, hkey, hphase⟩ := h.running k v hv
      refine ⟨other, task, ?_, hkey, hphase⟩
      rw [htasks, FinMap.get_insert_of_ne, hget]
      rintro rfl
      rw [hfresh] at hget
      cases hget
    · intro other task v hget hphase
      rw [htasks, FinMap.get_insert] at hget
      rw [hhealth]
      split_ifs at hget with heq
      · cases hget
        cases hphase
      · exact h.known other task v hget hphase

variable (enabled) in
/-- A task that ends while another of its key is registered takes that one off the map. -/
theorem not_mirrors_of_not_endsAlone {s : System} {i : Step} (hnot : ¬ EndsAlone s i) :
    ¬ Mirrors (step enabled s i).1 := by
  intro h
  apply hnot
  match i with
  | .abort _ | .spawn _ | .reap _ | .run _ .record | .run _ .register | .run _ (.edge _) => trivial
  | .run id .drop =>
    intro task other last task' last' hget hphase hne hget' hphase' hkey
    have hact : task.act s.health .drop =
        (none, (deregister task.key s.health).1, task.tell none (deregister task.key s.health).2) := by
      unfold ReceiverTask.act
      rw [hphase]
    rw [step_run hget, hact] at h
    have hin := h.known other task' last' (by dsimp only; rw [get_replace, if_neg hne, hget']) hphase'
    rw [hkey, FinMap.contains, deregister, withEdge_fst, FinMap.get_erase_self] at hin
    cases hin

/-! ## Every run -/

theorem known_start : Known enabled start :=
  ⟨nofun, nofun, nofun, nofun, nofun⟩

theorem mirrors_start : Mirrors start := ⟨nofun, nofun⟩

theorem tells_start : Tells enabled [] start.health where
  carriers status := by
    constructor
    · intro hmem
      exact absurd hmem (Finset.notMem_empty status)
    · rintro ⟨e, he, -⟩
      cases he
  edges status := ⟨List.isChain_singleton false, rfl⟩

theorem known_run (steps : List Step) : Known enabled ((machine enabled).exec start steps) :=
  Machine.invariant_rule (P := Known enabled) (fun _ i h => Known.step h i) steps start known_start

variable (enabled) in
theorem tells_run (steps : List Step) :
    Tells enabled ((machine enabled).trace start steps) ((machine enabled).exec start steps).health :=
  (Machine.history_rule (m := machine enabled) (P := fun t s => Known enabled s ∧ Tells enabled t s.health)
    ⟨known_start, tells_start⟩ (fun _ _ i h => ⟨h.1.step i, Tells.step h.1 h.2 i⟩) steps).2

theorem Known.serving_iff {t : List (Step × Told)} {s : System} (hs : Known enabled s) (ht : Tells enabled t s.health)
    (status : StatusKey) : Serving enabled t s status ↔ statusUpIn s.health status = true := by
  rw [statusUpIn_iff, Serving]
  refine exists_congr fun key => and_congr_right fun hup => ?_
  rw [hs.statusKey (hs.up key (FinMap.contains_eq_true.mpr ⟨true, hup⟩)), ht.carriers]

theorem mirrors_run {steps : List Step} (halone : (machine enabled).Along EndsAlone start steps) :
    Mirrors ((machine enabled).exec start steps) :=
  (Machine.along_rule (m := machine enabled) (P := fun s => Known enabled s ∧ Mirrors s)
    (fun _ i hi h => ⟨h.1.step i, Mirrors.step h.1 h.2 hi⟩) steps start halone ⟨known_start, mirrors_start⟩).2

theorem along_of_mirrors (steps : List Step)
    (h : ∀ taken, taken <+: steps → Mirrors ((machine enabled).exec start taken)) :
    (machine enabled).Along EndsAlone start steps := by
  induction steps using List.reverseRecOn with
  | nil => trivial
  | append_singleton steps i ih =>
    rw [Machine.along_append]
    refine ⟨ih fun taken htaken => h taken (htaken.trans (List.prefix_append _ _)), ?_, trivial⟩
    by_contra hnot
    refine not_mirrors_of_not_endsAlone enabled hnot ?_
    have hlast := h (steps ++ [i]) (List.prefix_refl _)
    rwa [Machine.exec_append] at hlast

/-- **Health mirrors the receivers.**  In every state of a run the map holds exactly the keys with a registered task,
each with what such a task last set, and the edges published under every status key alternate from up and end with its
aggregate, if and only if no registered task ends in the run while another task of its key is registered. -/
theorem health_mirrors_receivers_iff (enabled : List Feed) (steps : List Step) :
    (∀ taken, taken <+: steps →
      Mirrors ((machine enabled).exec start taken) ∧
      ∀ status, ∃ now, (now = true ↔
          Serving enabled ((machine enabled).trace start taken) ((machine enabled).exec start taken) status) ∧
        Alternating (edgesOf ((machine enabled).trace start taken) status) now) ↔
    (machine enabled).Along EndsAlone start steps := by
  constructor
  · exact fun h => along_of_mirrors steps fun taken htaken => (h taken htaken).1
  · rintro halone taken ⟨rest, rfl⟩
    rw [Machine.along_append] at halone
    have htells := tells_run enabled taken
    exact ⟨mirrors_run halone.1, fun status =>
      ⟨_, ((known_run taken).serving_iff htells status).symm, htells.edges status⟩⟩

/-- One flat row. -/
def flatRow : Feed :=
  ⟨"VENUE", "perps", "code", .topOfBook, 0, [⟨.twoPort 9000 9001, none, none⟩], true, .sticky, false, none, none⟩

def flatKey : FeedKey := ⟨"VENUE", "perps", .topOfBook, 9000⟩

/-- The key leaves and comes back while its first task is still in its last poll. -/
def readmitted : List Step :=
  [.spawn flatKey, .run 0 .record, .run 0 .register, .abort flatKey,
    .spawn flatKey, .run 1 .record, .run 1 .register, .run 0 .drop]

/-- The first task's end takes the second off the map, and the venue down, while it serves. -/
theorem readmitted_key_is_forgotten :
    ¬ Mirrors ((machine [flatRow]).exec start readmitted) := by
  intro h
  have hin := h.known 1 ⟨flatKey, none, .registered true⟩ true (by decide) rfl
  revert hin
  decide

end EdgeConnect.Health
