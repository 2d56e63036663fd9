import EdgeConnect.Lib.FinMap
import Mathlib.Logic.Function.Basic

/-!
# Copies of a map under other names

A reader of a finite map sees its entries under names of its own: `Mirrors name val m f` says that the partial function
`f` holds exactly the entries of `m`, each under the name of its key.

* `Mirrors.insert`, `Mirrors.erase` — a write of the map is the write of its copy, if no two keys share a name;
* `Mirrors.filter` — an entry that goes is erased from the copy, one after the other, in any order;
* `mirrors_writes` — a copy is rebuilt by writing the entries in any order.
-/

set_option autoImplicit false

/-- A partial function holds the entries of a map under the names of their keys. -/
def Mirrors {K V N W : Type*} (name : K → N) (val : V → W) (m : FinMap K V) (f : N → Option W) : Prop :=
  ∀ n w, f n = some w ↔ ∃ k v, m.get k = some v ∧ name k = n ∧ val v = w

section Mirror

variable {K V N W : Type*} {name : K → N} {val : V → W} {m : FinMap K V} {f : N → Option W}

theorem mirrors_empty (name : K → N) (val : V → W) : Mirrors name val ∅ fun _ => none :=
  fun _ _ => ⟨nofun, fun ⟨_, _, h, _⟩ => by cases h⟩

variable [DecidableEq N]

theorem Mirrors.insert [DecidableEq K] (h : Mirrors name val m f) (hname : Function.Injective name) (k : K) (v : V) :
    Mirrors name val (m.insert k v) (Function.update f (name k) (some (val v))) := by
  intro n w
  by_cases hn : n = name k
  · subst hn
    rw [Function.update_self]
    constructor
    · intro hw
      exact ⟨k, v, FinMap.get_insert_self m k v, rfl, Option.some.inj hw⟩
    · rintro ⟨k', v', hget, hk, rfl⟩
      rw [hname hk, FinMap.get_insert_self] at hget
      rw [Option.some.inj hget]
  · rw [Function.update_of_ne hn, h n w]
    have hother : ∀ k', name k' = n → (m.insert k v).get k' = m.get k' := by
      rintro k' rfl
      exact FinMap.get_insert_of_ne m v fun hk => hn (congrArg name hk)
    constructor
    · rintro ⟨k', v', hget, hk, hv⟩
      exact ⟨k', v', (hother k' hk).trans hget, hk, hv⟩
    · rintro ⟨k', v', hget, hk, hv⟩
      exact ⟨k', v', (hother k' hk).symm.trans hget, hk, hv⟩

/-- What names of `l` are erased from a copy. -/
theorem foldl_erase_apply (name : K → N) : ∀ (l : List K) (f : N → Option W) (n : N),
    l.foldl (fun f k => Function.update f (name k) none) f n = if n ∈ l.map name then none else f n
  | [], _, _ => by simp
  | k :: l, f, n => by
    rw [List.foldl_cons, foldl_erase_apply name l]
    by_cases hn : n = name k
    · subst hn
      simp
    · simp [hn]

/-- **Keys that go are erased from the copy, in any order.** -/
theorem Mirrors.filter (h : Mirrors name val m f) (hname : Function.Injective name) {l : List K} {keep : K → Bool}
    (hl : ∀ k, (∃ v, m.get k = some v) → (keep k = false ↔ k ∈ l)) (hkeys : ∀ k ∈ l, ∃ v, m.get k = some v) :
    Mirrors name val (m.filter fun k _ => keep k) (l.foldl (fun f k => Function.update f (name k) none) f) := by
  intro n w
  rw [foldl_erase_apply]
  by_cases hn : n ∈ l.map name
  · rw [if_pos hn]
    obtain ⟨k, hk, rfl⟩ := List.mem_map.mp hn
    constructor
    · nofun
    · rintro ⟨k', v, hget, hname', -⟩
      obtain rfl := hname hname'
      rw [FinMap.get_filter, Option.filter_eq_some_iff, (hl _ (hkeys _ hk)).mpr hk] at hget
      cases hget.2
  · rw [if_neg hn, h n w]
    constructor
    · rintro ⟨k, v, hget, rfl, hv⟩
      refine ⟨k, v, ?_, rfl, hv⟩
      have hkeep : keep k = true := by
        rw [← Bool.not_eq_false]
        exact fun hgone => hn (List.mem_map.mpr ⟨k, (hl k ⟨v, hget⟩).mp hgone, rfl⟩)
      rw [FinMap.get_filter, Option.filter_eq_some_iff]
      exact ⟨hget, hkeep⟩
    · rintro ⟨k, v, hget, hk, hv⟩
      rw [FinMap.get_filter, Option.filter_eq_some_iff] at hget
      exact ⟨k, v, hget.1, hk, hv⟩

theorem Mirrors.erase [DecidableEq K] (h : Mirrors name val m f) (hname : Function.Injective name) (k : K) :
    Mirrors name val (m.erase k) (Function.update f (name k) none) := by
  intro n w
  by_cases hn : n = name k
  · subst hn
    rw [Function.update_self]
    constructor
    · nofun
    · rintro ⟨k', v', hget, hk, -⟩
      rw [hname hk, FinMap.get_erase_self] at hget
      cases hget
  · rw [Function.update_of_ne hn, h n w]
    have hother : ∀ k', name k' = n → (m.erase k).get k' = m.get k' := by
      rintro k' rfl
      exact FinMap.get_erase_of_ne m fun hk => hn (congrArg name hk)
    constructor
    · rintro ⟨k', v', hget, hk, hv⟩
      exact ⟨k', v', (hother k' hk).trans hget, hk, hv⟩
    · rintro ⟨k', v', hget, hk, hv⟩
      exact ⟨k', v', (hother k' hk).symm.trans hget, hk, hv⟩

/-- **A copy is rebuilt by writing the entries of the map, in any order.** -/
theorem mirrors_writes [LinearOrder K] (hname : Function.Injective name) {l : List (K × V)}
    (hl : ∀ k v, (k, v) ∈ l ↔ m.get k = some v) :
    Mirrors name val m (l.foldl (fun f e => Function.update f (name e.1) (some (val e.2))) fun _ => none) := by
  have hwrite : ∀ (l : List (K × V)) (m : FinMap K V) (f : N → Option W), Mirrors name val m f →
      Mirrors name val (l.foldl (fun m e => m.insert e.1 e.2) m)
        (l.foldl (fun f e => Function.update f (name e.1) (some (val e.2))) f) := by
    intro l
    induction l with
    | nil => exact fun m f h => h
    | cons e l ih => exact fun m f h => ih _ _ (h.insert hname e.1 e.2)
  have h := hwrite l ∅ _ (mirrors_empty name val)
  rw [FinMap.foldl_insert_eq hl] at h
  exact h

end Mirror
