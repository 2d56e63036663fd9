import Mathlib.Data.Finset.Card
import Mathlib.Data.List.Dedup

/-!
# Bounded maps

* `evictWhile` — drop the keys at the front of a queue while a store is full, with its invariant rules;
* `Lists` — a queue with the keys of a finite set, each once.
-/

set_option autoImplicit false

namespace EdgeConnect

variable {σ κ : Type*}

/-- Pop keys off the front of a queue while the store is full, dropping each from the store. -/
def evictWhile (full : σ → Bool) (drop : σ → κ → σ) : List κ → σ → List κ × σ
  | [], s => ([], s)
  | k :: ks, s => if full s then evictWhile full drop ks (drop s k) else (k :: ks, s)

/-- What dropping a key preserves, evicting preserves. -/
theorem evictWhile_rule (full : σ → Bool) (drop : σ → κ → σ) {P : σ → Prop} (h : ∀ s k, P s → P (drop s k)) :
    ∀ (ks : List κ) (s : σ), P s → P (evictWhile full drop ks s).2
  | [], _, hs => hs
  | k :: ks, s, hs => by
    unfold evictWhile
    split
    · exact evictWhile_rule full drop h ks _ (h s k hs)
    · exact hs

/-- What dropping the front of the queue preserves, evicting preserves; then the store has room or the queue is
empty. -/
theorem evictWhile_queue (full : σ → Bool) (drop : σ → κ → σ) {P : List κ → σ → Prop}
    (h : ∀ k ks s, P (k :: ks) s → P ks (drop s k)) :
    ∀ (ks : List κ) (s : σ), P ks s → P (evictWhile full drop ks s).1 (evictWhile full drop ks s).2 ∧
      (full (evictWhile full drop ks s).2 = false ∨ (evictWhile full drop ks s).1 = [])
  | [], _, hs => ⟨hs, .inr rfl⟩
  | k :: ks, s, hs => by
    unfold evictWhile
    split
    · exact evictWhile_queue full drop h ks _ (h k ks s hs)
    · rename_i hroom
      exact ⟨hs, .inl (Bool.not_eq_true _ ▸ hroom)⟩

/-- A store with room is left as it is. -/
theorem evictWhile_of_room {full : σ → Bool} (drop : σ → κ → σ) {s : σ} (h : full s = false) :
    ∀ ks : List κ, evictWhile full drop ks s = (ks, s)
  | [] => rfl
  | _ :: _ => by
    unfold evictWhile
    rw [if_neg (by rw [h]; exact Bool.false_ne_true)]

/-- What each round of a loop leaves as it was, the loop leaves as it was. -/
theorem foldl_keeps {β : Type*} (g : σ → β) (step : σ → κ → σ) (h : ∀ s k, g (step s k) = g s) :
    ∀ (ks : List κ) (s : σ), g (ks.foldl step s) = g s
  | [], _ => rfl
  | k :: ks, s => (foldl_keeps g step h ks (step s k)).trans (h s k)

/-! ## The queue of a set -/

/-- The queue has each key of the set once, and nothing else. -/
structure Lists (queue : List κ) (keys : Finset κ) : Prop where
  nodup : queue.Nodup
  mem : ∀ k, k ∈ queue ↔ k ∈ keys

namespace Lists

variable {queue : List κ} {keys : Finset κ} {k : κ}

theorem nil : Lists ([] : List κ) ∅ := ⟨List.nodup_nil, by simp⟩

theorem filter (h : Lists queue keys) (p : κ → Bool) : Lists (queue.filter p) (keys.filter fun k => p k = true) := by
  refine ⟨h.nodup.filter p, fun a => ?_⟩
  rw [List.mem_filter, Finset.mem_filter, h.mem]

variable [DecidableEq κ]

theorem toFinset (h : Lists queue keys) : queue.toFinset = keys := by
  ext k
  rw [List.mem_toFinset, h.mem]

theorem length (h : Lists queue keys) : queue.length = keys.card := by
  rw [← h.toFinset, List.toFinset_card_of_nodup h.nodup]

theorem push (h : Lists queue keys) (hk : k ∉ keys) : Lists (queue ++ [k]) (insert k keys) := by
  refine ⟨List.nodup_append.mpr ⟨h.nodup, List.nodup_singleton k, ?_⟩, fun a => ?_⟩
  · intro a ha b hb heq
    rw [List.mem_singleton.mp hb] at heq
    exact hk ((h.mem k).mp (heq ▸ ha))
  · rw [List.mem_append, List.mem_singleton, Finset.mem_insert, h.mem, or_comm]

theorem pop (h : Lists (k :: queue) keys) : Lists queue (keys.erase k) := by
  obtain ⟨hout, hnodup⟩ := List.nodup_cons.mp h.nodup
  refine ⟨hnodup, fun a => ?_⟩
  rw [Finset.mem_erase, ← h.mem, List.mem_cons]
  exact ⟨fun ha => ⟨fun heq => hout (heq ▸ ha), .inr ha⟩, fun ⟨hne, ha⟩ => ha.resolve_left hne⟩

/-- **Room for a new key.**  Popping keys while a store is full makes room for one that is appended. -/
theorem evict (keys : σ → Finset κ) (drop : σ → κ → σ) {cap : Nat} {s : σ} (hcap : 0 < cap)
    (hdrop : ∀ s k, keys (drop s k) = (keys s).erase k) (h : Lists queue (keys s)) (hk : k ∉ keys s) :
    Lists ((evictWhile (fun s => decide ((keys s).card ≥ cap)) drop queue s).1 ++ [k])
        (insert k (keys (evictWhile (fun s => decide ((keys s).card ≥ cap)) drop queue s).2)) ∧
      (insert k (keys (evictWhile (fun s => decide ((keys s).card ≥ cap)) drop queue s).2)).card ≤ cap := by
  have hloop := evictWhile_queue (fun s => decide ((keys s).card ≥ cap)) drop
    (P := fun queue s => Lists queue (keys s) ∧ k ∉ keys s)
    (fun old queue s hs => by
      rw [hdrop]
      exact ⟨hs.1.pop, fun hin => hs.2 (Finset.mem_of_mem_erase hin)⟩) queue s ⟨h, hk⟩
  generalize evictWhile _ drop queue s = x at hloop ⊢
  obtain ⟨⟨hlists, hout⟩, hroom⟩ := hloop
  refine ⟨hlists.push hout, ?_⟩
  rw [Finset.card_insert_of_notMem hout]
  rcases hroom with hroom | hempty
  · have hless : ¬ (keys x.2).card ≥ cap := by simpa using hroom
    omega
  · have hlength := hlists.length
    rw [hempty, List.length_nil] at hlength
    omega

end Lists

end EdgeConnect
