import EdgeConnect.Lib.FinMap

/-!
# A counted part of a map, with its lazily cleaned queue

A store keeps, next to a map, the number of the entries that satisfy a test and a queue of their keys, oldest first.
The queue is cleaned lazily: it may name keys that have left, and one key twice.

* `Census` — the count is exact, and no entry that satisfies the test is missing from the queue;
* `add`, `keep`, `pass`, `leave` — inserting an entry that satisfies the test or not, by what it replaces;
* `pop`, `skip`, `clean` — erasing the front of the queue, dropping a stale front, dropping the stale keys;
* `length_le` — counted keys, each named once, are no more than the count.
-/

set_option autoImplicit false

namespace EdgeConnect

variable {K V : Type*}

/-- `n` entries of the map satisfy the test, and the queue has the key of each. -/
structure Census (m : FinMap K V) (test : V → Bool) (n : Nat) (queue : List K) : Prop where
  count : n = m.sumVals fun _ v => (test v).toNat
  queued : ∀ k v, m.get k = some v → test v = true → k ∈ queue

namespace Census

variable {m : FinMap K V} {test : V → Bool} {n : Nat} {queue : List K} {k : K} {v : V}

theorem empty (queue : List K) : Census (∅ : FinMap K V) test 0 queue := ⟨rfl, nofun⟩

theorem pos (h : Census m test n queue) (hv : m.get k = some v) (ht : test v = true) : 0 < n := by
  rw [h.count, FinMap.sumVals_pos_iff]
  exact ⟨k, v, hv, by rw [ht]; exact Nat.one_pos⟩

/-- Nothing is counted once the queue is empty. -/
theorem nil (h : Census m test n []) : n = 0 := by
  by_contra hn
  have hpos : 0 < m.sumVals fun _ v => (test v).toNat := h.count ▸ Nat.pos_of_ne_zero hn
  obtain ⟨k, v, hv, ht⟩ := FinMap.sumVals_pos_iff.mp hpos
  cases htest : test v with
  | false => rw [htest] at ht; exact absurd ht (Nat.lt_irrefl 0)
  | true => cases h.queued k v hv htest

/-- Whether the entry of a key satisfies the test. -/
def holds (m : FinMap K V) (test : V → Bool) (k : K) : Bool := (m.get k).any test

theorem elim_eq_holds (m : FinMap K V) (test : V → Bool) (k : K) :
    (m.get k).elim 0 (fun v => (test v).toNat) = (holds m test k).toNat := by
  unfold holds
  cases m.get k <;> rfl

/-- A stale key at the front of the queue may go. -/
theorem skip (h : Census m test n (k :: queue)) (hold : holds m test k = false) : Census m test n queue := by
  refine ⟨h.count, fun a w hw ht => (List.mem_cons.mp (h.queued a w hw ht)).resolve_left ?_⟩
  rintro rfl
  rw [holds, hw] at hold
  exact absurd ht (by simpa using hold)

/-- The stale keys may go. -/
theorem clean (h : Census m test n queue) : Census m test n (queue.filter fun k => holds m test k) := by
  refine ⟨h.count, fun a w hw ht => List.mem_filter.mpr ⟨h.queued a w hw ht, ?_⟩⟩
  rw [holds, hw]
  exact ht

section Insert

variable [DecidableEq K]

theorem queued_insert (h : Census m test n queue) {queue' : List K} (hsub : ∀ a ∈ queue, a ∈ queue')
    (hk : test v = true → k ∈ queue') :
    ∀ a w, (m.insert k v).get a = some w → test w = true → a ∈ queue' := by
  intro a w hw ht
  rw [FinMap.get_insert] at hw
  split at hw
  · rename_i ha
    cases hw
    exact ha ▸ hk ht
  · exact hsub a (h.queued a w hw ht)

/-- The count after an insertion, by what the new entry replaces. -/
theorem count_insert (h : Census m test n queue) (k : K) (v : V) :
    (m.insert k v).sumVals (fun _ v => (test v).toNat) + (holds m test k).toNat = n + (test v).toNat := by
  rw [h.count, ← elim_eq_holds]
  exact FinMap.sumVals_insert m (fun _ v => (test v).toNat) k v

/-- An entry that starts to satisfy the test is counted and queued. -/
theorem add (h : Census m test n queue) (hold : holds m test k = false) (hv : test v = true) :
    Census (m.insert k v) test (n + 1) (queue ++ [k]) := by
  have hcount := h.count_insert k v
  rw [hold, hv] at hcount
  exact ⟨hcount.symm, h.queued_insert (fun a ha => List.mem_append_left _ ha)
    fun _ => List.mem_append_right _ (List.mem_singleton_self k)⟩

/-- An entry that goes on satisfying the test keeps its place. -/
theorem keep (h : Census m test n queue) (hold : holds m test k = true) (hv : test v = true) :
    Census (m.insert k v) test n queue := by
  have hcount := h.count_insert k v
  rw [hold, hv] at hcount
  refine ⟨(Nat.add_right_cancel hcount).symm, h.queued_insert (fun _ ha => ha) fun _ => ?_⟩
  obtain ⟨w, hw, ht⟩ := Option.any_eq_true _ _ |>.mp hold
  exact h.queued k w hw ht

/-- An entry that satisfied the test neither before nor after is not counted. -/
theorem pass (h : Census m test n queue) (hold : holds m test k = false) (hv : test v = false) :
    Census (m.insert k v) test n queue := by
  have hcount := h.count_insert k v
  rw [hold, hv] at hcount
  exact ⟨hcount.symm, h.queued_insert (fun _ ha => ha) fun ht => by rw [hv] at ht; cases ht⟩

/-- An entry that stops satisfying the test is no longer counted; its key stays queued. -/
theorem leave (h : Census m test n queue) (hold : holds m test k = true) (hv : test v = false) :
    Census (m.insert k v) test (n - 1) queue := by
  have hcount := h.count_insert k v
  rw [hold, hv] at hcount
  refine ⟨?_, h.queued_insert (fun _ ha => ha) fun ht => by rw [hv] at ht; cases ht⟩
  rw [← show _ = n from hcount]
  rfl

end Insert

section Erase

variable [DecidableEq K]

theorem count_erase (h : Census m test n queue) (k : K) :
    (m.erase k).sumVals (fun _ v => (test v).toNat) + (holds m test k).toNat = n := by
  rw [h.count, ← elim_eq_holds]
  exact FinMap.sumVals_erase m (fun _ v => (test v).toNat) k

/-- Erasing the front of the queue, which is counted. -/
theorem pop (h : Census m test n (k :: queue)) (hold : holds m test k = true) :
    Census (m.erase k) test (n - 1) queue := by
  have hcount := h.count_erase k
  rw [hold] at hcount
  refine ⟨by rw [← hcount]; rfl, fun a w hw ht => ?_⟩
  rw [FinMap.get_erase] at hw
  split at hw
  · cases hw
  · rename_i ha
    exact (List.mem_cons.mp (h.queued a w hw ht)).resolve_left ha

/-- Erasing an entry that is not counted. -/
theorem erase (h : Census m test n queue) (hold : holds m test k = false) : Census (m.erase k) test n queue := by
  have hcount := h.count_erase k
  rw [hold] at hcount
  refine ⟨hcount.symm, fun a w hw ht => ?_⟩
  rw [FinMap.get_erase] at hw
  split at hw
  · cases hw
  · exact h.queued a w hw ht

/-- Keys that are all counted, each once, are no more than the count. -/
theorem length_le : ∀ {ks : List K} {m : FinMap K V} {n : Nat}, Census m test n queue → ks.Nodup →
    (∀ k ∈ ks, holds m test k = true) → ks.length ≤ n
  | [], _, _, _, _, _ => Nat.zero_le _
  | k :: ks, m, n, h, hnodup, hks => by
    obtain ⟨hout, hnodup⟩ := List.nodup_cons.mp hnodup
    obtain ⟨hk, hks⟩ := List.forall_mem_cons.mp hks
    have hcount := h.count_erase k
    rw [hk] at hcount
    -- what is left is counted in the map without the first key
    have hrest : Census (m.erase k) test ((m.erase k).sumVals fun _ v => (test v).toNat) queue := by
      refine ⟨rfl, fun a w hw ht => ?_⟩
      rw [FinMap.get_erase] at hw
      split at hw
      · cases hw
      · exact h.queued a w hw ht
    have hheld : ∀ a ∈ ks, holds (m.erase k) test a = true := by
      intro a ha
      have hne : a ≠ k := by
        rintro rfl
        exact hout ha
      unfold holds
      rw [FinMap.get_erase_of_ne _ hne]
      exact hks a ha
    have hle := length_le hrest hnodup hheld
    rw [List.length_cons]
    calc ks.length + 1 ≤ ((m.erase k).sumVals fun _ v => (test v).toNat) + 1 := Nat.add_le_add_right hle 1
      _ = n := hcount

end Erase

end Census

end EdgeConnect
