import EdgeConnect.Ingest.PathRace
import EdgeConnect.Lib.Pairing

/-!
# Which copies the trade matcher pairs

While nothing ages out and no cap is met, the matcher is a first-in-first-out pairing (`Pairing`) of the deliveries:
their kind is the signature, their source the path, and their occurrence the number of copies the path delivered before.

* `Calm` — all inside the window and below the caps;
* `queue_race` — the queues hold the arrivals that the pairing leaves waiting;
* `pairs_occurrences_iff` — the matcher pairs each copy with the same occurrence of another path exactly when the
  occurrences come in order, which two paths always do (`two_paths_in_order`) and three need not.
-/

set_option autoImplicit false

namespace EdgeConnect.Race

open Arbiter Authority

/-- The matcher after some deliveries. -/
def race (windowNs : Nat) (ds : List Delivery) : PathRace := machine.exec (.new windowNs) (ds.map .onTrade)

/-- The copies of a trade that its path delivered among some deliveries. -/
def copiesBefore (ds : List Delivery) (d : Delivery) : Nat :=
  ds.countP fun e => e.signature = d.signature && decide (e.path = d.path)

/-- A delivery with its place in the run: its signature, its path, and which copy it is. -/
def marks (ds : List Delivery) : Pairing.Marks (Delivery × Nat) Signature Transport where
  kind e := e.1.signature
  source e := e.1.path
  occurrence e := copiesBefore (ds.take e.2) e.1

/-- Receive times that do not go back and lie within one window, and neither cap met. -/
structure Calm (windowNs : Nat) (ds : List Delivery) : Prop where
  forward : ds.Pairwise fun d e => d.recvNs ≤ e.recvNs
  within : ∀ d ∈ ds, ∀ e ∈ ds, e.recvNs - d.recvNs ≤ windowNs
  roomy : ∀ u d v, ds = u ++ d :: v → (race windowNs u).peer d = none →
    (race windowNs u).order.length < MAX_PENDING ∧ ((race windowNs u).queue d.signature).length < MAX_PER_SIGNATURE

/-- The delivery that `d`, coming after `u`, is paired with. -/
def pairedWith (ds u : List Delivery) (d : Delivery) : Option (Delivery × Nat) :=
  Pairing.partner (marks ds) u.zipIdx (d, u.length)

/-- Every match pairs the same occurrence of two paths, and no delivery takes part in two. -/
structure PairsOccurrences (windowNs : Nat) (ds : List Delivery) : Prop where
  matched : ∀ u d v, ds = u ++ d :: v → ∀ m, ((race windowNs u).onTrade d).2 = some m →
    ∃ u' e v', u = u' ++ e :: v' ∧ pairedWith ds u d = some (e, u'.length) ∧ e.signature = d.signature ∧
      e.path ≠ d.path ∧ copiesBefore u' e = copiesBefore u d ∧ e.recvNs ≤ d.recvNs ∧
      m = ⟨d.scope, e.path, d.path, d.recvNs - e.recvNs⟩
  once : ∀ u d v d' w, ds = u ++ d :: (v ++ d' :: w) → ∀ e e', pairedWith ds u d = some e →
    pairedWith ds (u ++ d :: v) d' = some e' → e ≠ e' ∧ e ≠ (d', (u ++ d :: v).length) ∧ (d, u.length) ≠ e'

/-! ## A calm step -/

namespace PathRace

variable {s : PathRace} {nowNs : Nat}

theorem evictStale_of_inside (h : ∀ e ∈ s.order, nowNs - e.2 ≤ s.windowNs) : s.evictStale nowNs = (s, ∅) := by
  unfold evictStale
  cases hc : s.order with
  | nil => rfl
  | cons e rest =>
    unfold evictLoop
    rw [if_pos (h e (hc ▸ List.mem_cons_self))]

theorem makeRoom_of_short (h : s.order.length < MAX_PENDING) : makeRoom s.order s = s := by
  cases hc : s.order with
  | nil => rfl
  | cons e rest =>
    rw [hc, List.length_cons] at h
    unfold makeRoom
    rw [if_neg (by omega)]

theorem queue_push {sig : Signature} {a : Arrival} (hshort : s.order.length < MAX_PENDING)
    (hroom : (s.queue sig).length < MAX_PER_SIGNATURE) (sig' : Signature) :
    (s.push sig a).queue sig' = (s.queue sig' ++ if sig' = sig then [a] else []) ∧
      (s.push sig a).order = s.order ++ [(sig, a.recvNs)] ∧ (s.push sig a).windowNs = s.windowNs := by
  have hpush : s.push sig a = { s with
      order := s.order ++ [(sig, a.recvNs)]
      pending := s.pending.insert sig (s.queue sig ++ [a])
      live := s.live + 1 } := by
    unfold push
    rw [makeRoom_of_short hshort]
    simp only
    rw [if_neg (Nat.not_le.mpr hroom)]
  rw [hpush]
  refine ⟨?_, rfl, rfl⟩
  show ((s.pending.insert sig (s.queue sig ++ [a])).get sig').getD [] = _
  rw [FinMap.get_insert]
  split
  · rename_i heq
    rw [heq]
    rfl
  · rw [List.append_nil]
    rfl

end PathRace

/-! ## The matcher is a pairing -/

variable {windowNs : Nat} {ds u v : List Delivery} {d : Delivery}

/-- The matcher holds what the pairing leaves waiting. -/
structure Holds (windowNs : Nat) (ds u : List Delivery) : Prop where
  queue : ∀ sig, (race windowNs u).queue sig =
    ((Pairing.pool (marks ds) u.zipIdx).filter fun e => e.1.signature = sig).map fun e => e.1.arrival
  order : ∀ e ∈ (race windowNs u).order, ∃ d ∈ u, e.2 = d.recvNs
  windowNs : (race windowNs u).windowNs = windowNs

theorem race_snoc (u : List Delivery) (d : Delivery) : race windowNs (u ++ [d]) = ((race windowNs u).onTrade d).1 := by
  unfold race
  rw [List.map_append, Machine.exec_append]
  rfl

theorem zipIdx_snoc (u : List Delivery) (d : Delivery) : (u ++ [d]).zipIdx = u.zipIdx ++ [(d, u.length)] := by
  rw [List.zipIdx_append]
  simp

/-- Among the arrivals of its signature, a trade looks for the first from another path. -/
theorem find_filter (q : List (Delivery × Nat)) (n : Nat) :
    ((q.filter fun e => e.1.signature = d.signature).map fun e => e.1.arrival).find? (fun a => a.path ≠ d.path) =
      (q.find? ((marks ds).mates (d, n))).map fun e => e.1.arrival := by
  rw [List.find?_map, List.find?_filter]
  congr 2
  funext e
  unfold Pairing.Marks.mates marks Delivery.arrival
  simp [Function.comp]

/-- Erasing what a filter rejects anyway changes nothing. -/
theorem filter_eraseP_of_not {α : Type*} {p f : α → Bool} (h : ∀ x, p x = true → f x = false) :
    ∀ q : List α, (q.eraseP p).filter f = q.filter f
  | [] => rfl
  | x :: q => by
    cases hp : p x with
    | true => rw [List.eraseP_cons_of_pos hp, List.filter_cons_of_neg (by simp [h x hp])]
    | false =>
      rw [List.eraseP_cons_of_neg (by simp [hp]), List.filter_cons, List.filter_cons, filter_eraseP_of_not h q]

/-- The trade takes that arrival out of the queue of its signature, and leaves the others. -/
theorem eraseP_filter (q : List (Delivery × Nat)) (n : Nat) (sig : Signature) :
    ((q.eraseP ((marks ds).mates (d, n))).filter fun e => e.1.signature = sig).map (fun e => e.1.arrival) =
      if sig = d.signature then
        ((q.filter fun e => e.1.signature = sig).map fun e => e.1.arrival).eraseP fun a => a.path ≠ d.path
      else (q.filter fun e => e.1.signature = sig).map fun e => e.1.arrival := by
  split
  · rename_i heq
    subst heq
    rw [List.eraseP_map, List.eraseP_filter]
    congr 3
    funext e
    unfold Pairing.Marks.mates marks Delivery.arrival
    simp [Function.comp, Bool.and_comm]
  · rename_i hne
    rw [filter_eraseP_of_not]
    intro e he
    have hkind := (Pairing.mates_iff.mp he).1
    rw [decide_eq_false_iff_not]
    exact fun heq => hne (heq.symm.trans hkind)

/-- A calm trade: no arrival leaves but the one it is paired with. -/
theorem Holds.onTrade (h : Holds windowNs ds u) (hcalm : Calm windowNs ds) (hds : ds = u ++ d :: v) :
    Holds windowNs ds (u ++ [d]) ∧ ((race windowNs u).onTrade d).2 =
      (pairedWith ds u d).map fun e => ⟨d.scope, e.1.path, d.path, d.recvNs - e.1.recvNs⟩ := by
  have hinside : ∀ e ∈ (race windowNs u).order, d.recvNs - e.2 ≤ (race windowNs u).windowNs := by
    intro e he
    obtain ⟨d', hd', heq⟩ := h.order e he
    rw [heq, h.windowNs]
    exact hcalm.within d' (by rw [hds]; exact List.mem_append_left _ hd') d (by rw [hds]; simp)
  have hroomy := hcalm.roomy u d v hds
  have hqueue := h.queue
  have hfind : _ = ((Pairing.pool (marks ds) u.zipIdx).find? ((marks ds).mates (d, u.length))).map fun e => e.1.arrival :=
    find_filter (Pairing.pool (marks ds) u.zipIdx) u.length
  rw [← h.queue] at hfind
  have hmono : ∀ e ∈ (race windowNs u).order, ∃ d' ∈ u ++ [d], e.2 = d'.recvNs := by
    intro e he
    obtain ⟨d', hd', heq⟩ := h.order e he
    exact ⟨d', List.mem_append_left _ hd', heq⟩
  have hpool := Pairing.pool_snoc (k := marks ds) u.zipIdx (d, u.length)
  rw [← zipIdx_snoc] at hpool
  unfold pairedWith Pairing.partner
  unfold Pairing.offer at hpool ⊢
  have hpeer : (race windowNs u).peer d =
      ((Pairing.pool (marks ds) u.zipIdx).find? ((marks ds).mates (d, u.length))).map fun e => e.1.arrival := hfind
  have htrade : (race windowNs u).onTrade d = ((race windowNs u).peer d).elim
      ((race windowNs u).push d.signature d.arrival, none) fun peer =>
        ((race windowNs u).remove d.signature fun a => a.path ≠ d.path,
          some ⟨d.scope, peer.path, d.path, d.recvNs - peer.recvNs⟩) := by
    have hstale := PathRace.evictStale_of_inside hinside
    unfold PathRace.onTrade
    generalize (race windowNs u).evictStale d.recvNs = r at hstale ⊢
    cases hstale
    simp only
    cases (race windowNs u).peer d with
    | none => rfl
    | some peer => rfl
  cases hmate : (Pairing.pool (marks ds) u.zipIdx).find? ((marks ds).mates (d, u.length)) with
  | some e =>
    rw [hmate] at hpool hpeer
    replace htrade : (race windowNs u).onTrade d = ((race windowNs u).remove d.signature fun a => a.path ≠ d.path,
        some ⟨d.scope, e.1.path, d.path, d.recvNs - e.1.recvNs⟩) := by
      rw [htrade, hpeer]
      rfl
    refine ⟨⟨fun sig => ?_, ?_, ?_⟩, by rw [htrade]; rfl⟩
    · rw [race_snoc, htrade, hpool]
      show ((race windowNs u).remove d.signature fun a => a.path ≠ d.path).queue sig = _
      rw [PathRace.queue_remove, h.queue sig, eraseP_filter]
      split
      · rename_i heq
        rw [heq, h.queue d.signature]
      · rfl
    · rw [race_snoc, htrade]
      exact hmono
    · rw [race_snoc, htrade]
      exact h.windowNs
  | none =>
    rw [hmate] at hpool hpeer
    obtain ⟨hshort, hroom⟩ := hroomy hpeer
    obtain ⟨-, horder, hwindow⟩ := PathRace.queue_push (a := d.arrival) hshort hroom d.signature
    replace htrade : (race windowNs u).onTrade d = ((race windowNs u).push d.signature d.arrival, none) := by
      rw [htrade, hpeer]
      rfl
    refine ⟨⟨fun sig => ?_, ?_, ?_⟩, by rw [htrade]; rfl⟩
    · rw [race_snoc, htrade, hpool]
      show ((race windowNs u).push d.signature d.arrival).queue sig = _
      rw [(PathRace.queue_push hshort hroom sig).1, h.queue sig, List.filter_append, List.map_append]
      congr 1
      by_cases hsig : sig = d.signature
      · simp [hsig]
      · rw [if_neg hsig, List.filter_singleton, decide_eq_false fun heq => hsig heq.symm]
        rfl
    · rw [race_snoc, htrade]
      intro e he
      rw [horder, List.mem_append, List.mem_singleton] at he
      rcases he with he | rfl
      · exact hmono e he
      · exact ⟨d, by simp, rfl⟩
    · rw [race_snoc, htrade]
      exact hwindow.trans h.windowNs

/-- **The queues of the matcher are the arrivals that the pairing leaves waiting.** -/
theorem queue_race (hcalm : Calm windowNs ds) : ∀ u v, ds = u ++ v → Holds windowNs ds u := by
  intro u
  induction u using List.reverseRecOn with
  | nil => exact fun _ _ => ⟨fun _ => rfl, nofun, rfl⟩
  | append_singleton u d ih =>
    intro v hds
    have hsplit : ds = u ++ d :: v := by rw [hds, List.append_assoc]; rfl
    exact ((ih (d :: v) hsplit).onTrade hcalm hsplit).1

/-! ## The pairs -/

theorem zipIdx_split {x y : List (Delivery × Nat)} {a : Delivery × Nat} (h : ds.zipIdx = x ++ a :: y) :
    ∃ u d v, ds = u ++ d :: v ∧ x = u.zipIdx ∧ a = (d, u.length) ∧ y.length = v.length := by
  have hds : ds = x.map Prod.fst ++ a.1 :: y.map Prod.fst := by
    have := congrArg (List.map Prod.fst) h
    simpa using this
  have hzip : (x.map Prod.fst).zipIdx ++ (a.1, (x.map Prod.fst).length) ::
      (y.map Prod.fst).zipIdx ((x.map Prod.fst).length + 1) = x ++ a :: y := by
    rw [← h]
    conv_rhs => rw [hds]
    rw [List.zipIdx_append, List.zipIdx_cons, Nat.zero_add]
  obtain ⟨hx, hrest⟩ := List.append_inj hzip (by simp)
  exact ⟨_, a.1, _, hds, hx.symm, (List.cons.inj hrest).1.symm, by simp⟩

theorem occurrence_marks (hds : ds = u ++ d :: v) : (marks ds).occurrence (d, u.length) = copiesBefore u d := by
  show copiesBefore (ds.take u.length) d = _
  rw [hds, List.take_left]

theorem fellows_marks (u : List Delivery) (d : Delivery) (n : Nat) :
    Pairing.fellows (marks ds) u.zipIdx (d, n) = copiesBefore u d := by
  unfold Pairing.fellows copiesBefore
  conv_rhs => rw [← List.zipIdx_map_fst 0 u, List.countP_map]
  rfl

theorem numbered_marks (ds : List Delivery) : Pairing.Numbered (marks ds) ds.zipIdx := by
  intro x a y h
  obtain ⟨u, d, v, hds, rfl, rfl, -⟩ := zipIdx_split h
  rw [occurrence_marks hds, fellows_marks]

theorem nodup_zipIdx (ds : List Delivery) : ds.zipIdx.Nodup := by
  refine List.Nodup.of_map Prod.snd ?_
  rw [List.zipIdx_map_snd]
  exact List.nodup_range'

/-- The delivery a trade is paired with is an earlier one of its signature from another path. -/
theorem pairedWith_spec {e : Delivery × Nat} (h : pairedWith ds u d = some e) :
    (∃ u' v', u = u' ++ e.1 :: v' ∧ e.2 = u'.length) ∧ e.1.signature = d.signature ∧ e.1.path ≠ d.path := by
  rcases Pairing.offer_cases (k := marks ds) u.zipIdx (d, u.length) with ⟨hnone, -⟩ | ⟨b, l, r, hsome, hpool, -, hkind, hsource, -⟩
  · rw [show Pairing.partner (marks ds) u.zipIdx (d, u.length) = some e from h] at hnone
    cases hnone
  · obtain rfl : b = e := Option.some.inj (hsome.symm.trans h)
    have hmem : b ∈ u.zipIdx := Pairing.mem_of_mem_pool (k := marks ds) (hpool ▸ List.mem_append_right _ List.mem_cons_self)
    obtain ⟨x, y, hzip⟩ := List.append_of_mem hmem
    obtain ⟨u', e, v', hu, -, rfl, -⟩ := zipIdx_split hzip
    exact ⟨⟨u', v', hu, rfl⟩, hkind, hsource⟩

/-- **The matcher pairs the same occurrences exactly when they come in order.** -/
theorem pairs_occurrences_iff (hcalm : Calm windowNs ds) :
    PairsOccurrences windowNs ds ↔ Pairing.InOrder (marks ds) ds.zipIdx := by
  rw [← Pairing.paired_iff_inOrder (numbered_marks ds)]
  have htrade : ∀ {u d v}, ds = u ++ d :: v → _ := fun {u d v} hds => ((queue_race hcalm u (d :: v) hds).onTrade hcalm hds).2
  constructor
  · intro h x a y hzip b hb
    obtain ⟨u, d, v, hds, rfl, rfl, -⟩ := zipIdx_split hzip
    have hmatch : ((race windowNs u).onTrade d).2 = some _ :=
      (htrade hds).trans (congrArg _ (show pairedWith ds u d = some b from hb))
    obtain ⟨u', e, v', hu, hpair, -, -, hcopies, -⟩ := h.matched u d v hds _ hmatch
    obtain rfl : b = (e, u'.length) := Option.some.inj (hb.symm.trans hpair)
    have hds' : ds = u' ++ e :: (v' ++ d :: v) := by rw [hds, hu]; simp
    rw [occurrence_marks hds', occurrence_marks hds, hcopies]
  · intro h
    refine ⟨fun u d v hds m hm => ?_, fun u d v d' w hds e e' he he' => ?_⟩
    · rw [htrade hds] at hm
      cases hpair : pairedWith ds u d with
      | none => rw [hpair] at hm; cases hm
      | some b =>
        rw [hpair] at hm
        cases hm
        obtain ⟨⟨u', v', hu, hplace⟩, hsig, hpath⟩ := pairedWith_spec hpair
        obtain ⟨e, n⟩ := b
        simp only at hu hplace hsig hpath
        subst hplace
        have hzip : ds.zipIdx = u.zipIdx ++ (d, u.length) :: v.zipIdx (u.length + 1) := by
          rw [hds, List.zipIdx_append, List.zipIdx_cons, Nat.zero_add]
        have hocc := h _ _ _ hzip _ hpair
        have hds' : ds = u' ++ e :: (v' ++ d :: v) := by rw [hds, hu]; simp
        rw [occurrence_marks hds', occurrence_marks hds] at hocc
        have hforward : e.recvNs ≤ d.recvNs := by
          have hp := hcalm.forward
          rw [hds', List.pairwise_append, List.pairwise_cons] at hp
          exact hp.2.1.1 d (by simp)
        exact ⟨u', e, v', hu, rfl, hsig, hpath, hocc, hforward, rfl⟩
    · have hzip : ds.zipIdx = u.zipIdx ++ (d, u.length) :: (v.zipIdx (u.length + 1) ++
          (d', (u ++ d :: v).length) :: w.zipIdx ((u ++ d :: v).length + 1)) := by
        rw [hds, List.zipIdx_append, List.zipIdx_cons, List.zipIdx_append, List.zipIdx_cons, List.length_append,
          List.length_cons]
        congr 5 <;> omega
      have hprefix : (u ++ d :: v).zipIdx = u.zipIdx ++ (d, u.length) :: v.zipIdx (u.length + 1) := by
        rw [List.zipIdx_append, List.zipIdx_cons, Nat.zero_add]
      have hpart : Pairing.partner (marks ds) (u.zipIdx ++ (d, u.length) :: v.zipIdx (u.length + 1))
          (d', (u ++ d :: v).length) = some e' := by
        rw [← hprefix]
        exact he'
      exact Pairing.pairs_disjoint (nodup_zipIdx ds) hzip he hpart

/-- Two paths, or any number of them that repeat no signature, come in order. -/
theorem in_order_of_two_paths {p q : Transport} (h : ∀ d ∈ ds, d.path = p ∨ d.path = q) :
    Pairing.InOrder (marks ds) ds.zipIdx := by
  have hpath : ∀ e ∈ ds.zipIdx, e.1.path = p ∨ e.1.path = q := fun e he => h e.1 (List.fst_mem_of_mem_zipIdx he)
  refine Pairing.inOrder_of_two (numbered_marks ds) fun a ha b hb c hc _ _ => ?_
  show a.1.path = b.1.path ∨ b.1.path = c.1.path ∨ a.1.path = c.1.path
  rcases hpath a ha with ha | ha <;> rcases hpath b hb with hb | hb <;> rcases hpath c hc with hc | hc <;>
    simp [ha, hb, hc]

/-! ## Three paths -/

/-- Every path delivers the same trades of one scope. -/
def SameTape (ds : List Delivery) : Prop :=
  ∃ (scope : ScopeKey) (tape : List Signature), (∀ sig ∈ tape, sig.scope = scope) ∧
    ∀ d ∈ ds, (ds.filter fun e => e.path = d.path).map Delivery.signature = tape

theorem forall_splits {q : List Delivery → Delivery → Prop} (h : ∀ n : Fin ds.length, q (ds.take n) (ds.get n)) :
    ∀ u d v, ds = u ++ d :: v → q u d := by
  rintro u d v rfl
  have hn := h ⟨u.length, by simp⟩
  simpa using hn

/-- One trade, as a path delivers it. -/
def copyOf (path recvNs : Nat) : Delivery where
  scope := ⟨⟨1, "KALSHI"⟩, "perps"⟩
  symbol := "KXBTCPERP"
  price := ⟨0x40B8380000000000⟩
  size := ⟨0x4062C00000000000⟩
  aggressor := .buy
  path := .edge path
  recvNs := recvNs

/-- Two copies each from three paths, in turns. -/
def threePaths : List Delivery :=
  [copyOf 1 1000, copyOf 2 2000, copyOf 3 3000, copyOf 1 4000, copyOf 2 5000, copyOf 3 6000]

/-- **A third path crosses the pairs**: the second copy of the first path is paired with the first copy of the third. -/
theorem third_path_crosses :
    ¬ ∀ windowNs ds, Calm windowNs ds → SameTape ds → PairsOccurrences windowNs ds := by
  intro h
  have hcalm : Calm 5000000000 threePaths :=
    ⟨by decide +kernel, by decide +kernel, forall_splits (by decide +kernel)⟩
  have htape : SameTape threePaths :=
    ⟨⟨⟨1, "KALSHI"⟩, "perps"⟩, [(copyOf 1 0).signature, (copyOf 1 0).signature], by decide +kernel, by decide +kernel⟩
  obtain ⟨u', e, v', hsplit, hpair, -, -, hcopies, -⟩ := (h _ _ hcalm htape).matched (threePaths.take 3) (copyOf 1 4000)
    (threePaths.drop 4) rfl ⟨⟨⟨1, "KALSHI"⟩, "perps"⟩, .edge 3, .edge 1, 1000⟩ (by decide +kernel)
  have hthird : pairedWith threePaths (threePaths.take 3) (copyOf 1 4000) = some (copyOf 3 3000, 2) := by decide +kernel
  rw [hthird, Option.some.injEq, Prod.mk.injEq] at hpair
  obtain ⟨rfl, hlen⟩ := hpair
  obtain rfl : u' = threePaths.take 2 := by
    have htake := congrArg (List.take u'.length) hsplit
    rw [List.take_left, ← hlen] at htake
    exact htake.symm
  exact absurd hcopies (by decide +kernel)

/-- Two paths with a repeated trade, in turns. -/
theorem pairs_occurrences_iff_holds :
    PairsOccurrences 5000000000 [copyOf 1 1000, copyOf 1 2000, copyOf 2 3000, copyOf 2 4000] :=
  (pairs_occurrences_iff ⟨by decide +kernel, by decide +kernel, forall_splits (by decide +kernel)⟩).mpr
    (in_order_of_two_paths (p := .edge 1) (q := .edge 2) (by decide +kernel))

end EdgeConnect.Race
