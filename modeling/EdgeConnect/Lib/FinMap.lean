import Mathlib.Algebra.BigOperators.Group.Finset.Basic
import Mathlib.Algebra.GroupWithZero.Nat
import Mathlib.Algebra.Order.BigOperators.Group.Finset
import Mathlib.Data.Finset.Sort
import Mathlib.Data.Finset.Card
import Mathlib.Data.List.Dedup
import Mathlib.Data.List.Sort
import Mathlib.Order.Monotone.Basic

/-!
# Finite partial maps

`FinMap K V` is a finite partial function from `K` to `V`: a lookup function together with the
finite set of the keys at which it is defined.  The key set is determined by the lookup, so two
maps are equal as soon as they agree at every key (`FinMap.ext`); it is carried as data because it
is what makes the size and the traversals of a map computable.

* `insert`, `erase`, `filter`, `mapVals` — the updates, each with its `get_…` equation;
* `size` — the number of keys, with `size_insert` / `size_erase`;
* `eq_of_le_of_size` — a map contained in another of the same size is that map;
* `sumVals` — the sum of a measure over the entries, with its change under `insert` and `erase`;
* `toList` — the entries in ascending key order, `any` — a test over the entries;
* `foldl_insert_eq` — a map is rebuilt by inserting its entries in any order;
* `visit` — the elements of a finite set in an order of the caller's choosing, each once.
-/

set_option autoImplicit false

/-- A finite partial map. -/
structure FinMap (K V : Type*) where
  keys : Finset K
  get : K → Option V
  mem_keys : ∀ k, k ∈ keys ↔ (get k).isSome = true

namespace FinMap

variable {K V W : Type*}

@[ext]
theorem ext {m m' : FinMap K V} (h : ∀ k, m.get k = m'.get k) : m = m' := by
  obtain ⟨ks, g, hm⟩ := m
  obtain ⟨ks', g', hm'⟩ := m'
  obtain rfl : g = g' := funext h
  have hk : ks = ks' := by ext k; rw [hm, hm']
  subst hk
  rfl

/-- The empty map. -/
def empty : FinMap K V := ⟨∅, fun _ => none, by simp⟩

instance : EmptyCollection (FinMap K V) := ⟨empty⟩

instance : Inhabited (FinMap K V) := ⟨empty⟩

/-- The number of keys. -/
def size (m : FinMap K V) : Nat := m.keys.card

/-- Whether the map is defined at a key. -/
def contains (m : FinMap K V) (k : K) : Bool := (m.get k).isSome

@[simp] theorem get_empty (k : K) : (∅ : FinMap K V).get k = none := rfl

@[simp] theorem keys_empty : (∅ : FinMap K V).keys = ∅ := rfl

@[simp] theorem size_empty : (∅ : FinMap K V).size = 0 := rfl

@[simp] theorem contains_eq_true {m : FinMap K V} {k : K} :
    m.contains k = true ↔ ∃ v, m.get k = some v := by
  simp [contains, Option.isSome_iff_exists]

@[simp] theorem contains_eq_false {m : FinMap K V} {k : K} :
    m.contains k = false ↔ m.get k = none := by
  simp [contains]

theorem mem_keys_iff {m : FinMap K V} {k : K} : k ∈ m.keys ↔ ∃ v, m.get k = some v := by
  rw [m.mem_keys, Option.isSome_iff_exists]

theorem notMem_keys_iff {m : FinMap K V} {k : K} : k ∉ m.keys ↔ m.get k = none := by
  rw [m.mem_keys]; simp

/-- Keep the entries a test accepts. -/
def filter (m : FinMap K V) (p : K → V → Bool) : FinMap K V :=
  ⟨m.keys.filter (fun k => ((m.get k).filter (p k)).isSome), fun k => (m.get k).filter (p k),
    fun k => by
      rw [Finset.mem_filter, m.mem_keys]
      cases m.get k <;> simp⟩

@[simp] theorem get_filter (m : FinMap K V) (p : K → V → Bool) (k : K) :
    (m.filter p).get k = (m.get k).filter (p k) := rfl

theorem get_filter_key (m : FinMap K V) (p : K → Bool) (k : K) :
    (m.filter fun k _ => p k).get k = if p k = true then m.get k else none := by
  rw [get_filter]
  cases p k <;> cases m.get k <;> rfl

theorem keys_filter_key (m : FinMap K V) (p : K → Bool) :
    (m.filter fun k _ => p k).keys = m.keys.filter fun k => p k = true := by
  ext k
  rw [Finset.mem_filter, mem_keys_iff, mem_keys_iff]
  simp only [get_filter, Option.filter_eq_some_iff]
  exact ⟨fun ⟨v, hv, hp⟩ => ⟨⟨v, hv⟩, hp⟩, fun ⟨⟨v, hv⟩, hp⟩ => ⟨v, hv, hp⟩⟩

theorem size_filter_le (m : FinMap K V) (p : K → V → Bool) : (m.filter p).size ≤ m.size :=
  Finset.card_filter_le _ _

/-- Apply a function to every value. -/
def mapVals (m : FinMap K V) (f : V → W) : FinMap K W :=
  ⟨m.keys, fun k => (m.get k).map f, fun k => by rw [m.mem_keys]; simp⟩

@[simp] theorem get_mapVals (m : FinMap K V) (f : V → W) (k : K) :
    (m.mapVals f).get k = (m.get k).map f := rfl

/-- Apply a function to every entry. -/
def mapEntries (m : FinMap K V) (f : K → V → W) : FinMap K W :=
  ⟨m.keys, fun k => (m.get k).map (f k), fun k => by rw [m.mem_keys]; simp⟩

@[simp] theorem get_mapEntries (m : FinMap K V) (f : K → V → W) (k : K) :
    (m.mapEntries f).get k = (m.get k).map (f k) := rfl

/-- Restrict a partial function to a finite set of keys. -/
def ofFun (s : Finset K) (g : K → Option V) [DecidableEq K] : FinMap K V :=
  ⟨s.filter (fun k => (g k).isSome), fun k => if k ∈ s then g k else none, fun k => by
    rw [Finset.mem_filter]
    by_cases h : k ∈ s <;> simp [h]⟩

@[simp] theorem get_ofFun (s : Finset K) (g : K → Option V) [DecidableEq K] (k : K) :
    (ofFun s g).get k = if k ∈ s then g k else none := rfl

/-- Whether some entry passes a test. -/
def any (m : FinMap K V) (p : K → V → Bool) : Bool :=
  decide (∃ k ∈ m.keys, (m.get k).any (p k) = true)

theorem any_eq_true {m : FinMap K V} {p : K → V → Bool} :
    m.any p = true ↔ ∃ k v, m.get k = some v ∧ p k v = true := by
  unfold any
  rw [decide_eq_true_iff]
  constructor
  · rintro ⟨k, -, hk⟩
    cases hv : m.get k with
    | none => simp [hv] at hk
    | some v => exact ⟨k, v, hv, by simpa [hv] using hk⟩
  · rintro ⟨k, v, hv, hp⟩
    exact ⟨k, mem_keys_iff.mpr ⟨v, hv⟩, by simp [hv, hp]⟩

/-- The sum of a measure over the entries. -/
def sumVals (m : FinMap K V) (f : K → V → Nat) : Nat := ∑ k ∈ m.keys, (m.get k).elim 0 (f k)

theorem sumVals_pos_iff {m : FinMap K V} {f : K → V → Nat} :
    0 < m.sumVals f ↔ ∃ k v, m.get k = some v ∧ 0 < f k v := by
  unfold sumVals
  rw [Finset.sum_pos_iff]
  constructor
  · rintro ⟨k, -, hk⟩
    cases hv : m.get k with
    | none => rw [hv] at hk; exact absurd hk (Nat.lt_irrefl 0)
    | some v => rw [hv] at hk; exact ⟨k, v, hv, hk⟩
  · rintro ⟨k, v, hv, hf⟩
    exact ⟨k, mem_keys_iff.mpr ⟨v, hv⟩, by rw [hv]; exact hf⟩

section Order

variable [LinearOrder K]

/-- The entries in ascending key order. -/
def toList (m : FinMap K V) : List (K × V) :=
  (m.keys.sort (· ≤ ·)).filterMap fun k => (m.get k).map (k, ·)

theorem mem_toList {m : FinMap K V} {k : K} {v : V} : (k, v) ∈ m.toList ↔ m.get k = some v := by
  unfold toList
  simp only [List.mem_filterMap, Finset.mem_sort, Option.map_eq_some_iff, Prod.mk.injEq]
  constructor
  · rintro ⟨k', _, v', h, rfl, rfl⟩; exact h
  · intro h; exact ⟨k, mem_keys_iff.mpr ⟨v, h⟩, v, h, rfl, rfl⟩

theorem map_fst_toList (m : FinMap K V) : m.toList.map Prod.fst = m.keys.sort (· ≤ ·) := by
  unfold toList
  rw [List.map_filterMap]
  have hall : ∀ k ∈ m.keys.sort (· ≤ ·),
      Option.map Prod.fst ((m.get k).map fun v => (k, v)) = some k := by
    intro k hk
    obtain ⟨v, hv⟩ := mem_keys_iff.mp ((Finset.mem_sort _).mp hk)
    rw [hv]; rfl
  rw [List.filterMap_congr hall, List.filterMap_some]

theorem toList_pairwise (m : FinMap K V) : m.toList.Pairwise fun a b => a.1 < b.1 := by
  have h : (m.toList.map Prod.fst).Pairwise (· < ·) := by
    rw [map_fst_toList]
    exact (Finset.sortedLT_sort _).pairwise
  exact List.pairwise_map.mp h

theorem toList_injective {m m' : FinMap K V} (h : m.toList = m'.toList) : m = m' := by
  ext1 k
  refine Option.ext fun v => ?_
  rw [← mem_toList, ← mem_toList, h]

theorem length_toList (m : FinMap K V) : m.toList.length = m.size := by
  rw [← List.length_map Prod.fst, map_fst_toList, Finset.length_sort]
  rfl

theorem sum_toList (m : FinMap K V) (f : K → V → Nat) :
    (m.toList.map fun e => f e.1 e.2).sum = m.sumVals f := by
  have hmap : (m.toList.map fun e => f e.1 e.2) =
      (m.toList.map Prod.fst).map fun k => (m.get k).elim 0 (f k) := by
    rw [List.map_map]
    refine List.map_congr_left fun e he => ?_
    show f e.1 e.2 = (m.get e.1).elim 0 (f e.1)
    rw [mem_toList.mp he]; rfl
  rw [hmap, map_fst_toList]
  unfold sumVals
  rw [Finset.sum_eq_multiset_sum]
  conv_rhs => rw [← Finset.sort_eq m.keys (· ≤ ·)]
  rw [Multiset.map_coe, Multiset.sum_coe]

end Order

variable [DecidableEq K]

/-- Set the value at a key. -/
def insert (m : FinMap K V) (k : K) (v : V) : FinMap K V :=
  ⟨Insert.insert k m.keys, fun a => if a = k then some v else m.get a, fun a => by
    by_cases h : a = k <;> simp [h, m.mem_keys]⟩

/-- Remove a key. -/
def erase (m : FinMap K V) (k : K) : FinMap K V :=
  ⟨m.keys.erase k, fun a => if a = k then none else m.get a, fun a => by
    by_cases h : a = k <;> simp [h, m.mem_keys]⟩

theorem get_insert (m : FinMap K V) (k a : K) (v : V) :
    (m.insert k v).get a = if a = k then some v else m.get a := rfl

@[simp] theorem get_insert_self (m : FinMap K V) (k : K) (v : V) :
    (m.insert k v).get k = some v := by simp [get_insert]

theorem get_insert_of_ne (m : FinMap K V) {k a : K} (v : V) (h : a ≠ k) :
    (m.insert k v).get a = m.get a := by simp [get_insert, h]

theorem insert_insert (m : FinMap K V) (k : K) (v w : V) : (m.insert k v).insert k w = m.insert k w := by
  ext1 a
  simp only [get_insert]
  split
  · rfl
  · rfl

theorem get_erase (m : FinMap K V) (k a : K) :
    (m.erase k).get a = if a = k then none else m.get a := rfl

@[simp] theorem get_erase_self (m : FinMap K V) (k : K) : (m.erase k).get k = none := by
  simp [get_erase]

theorem get_erase_of_ne (m : FinMap K V) {k a : K} (h : a ≠ k) :
    (m.erase k).get a = m.get a := by simp [get_erase, h]

@[simp] theorem erase_empty (k : K) : (∅ : FinMap K V).erase k = ∅ :=
  ext fun a => by rw [get_erase, get_empty, ite_self]

@[simp] theorem keys_insert (m : FinMap K V) (k : K) (v : V) :
    (m.insert k v).keys = Insert.insert k m.keys := rfl

theorem keys_insert_of_contains {m : FinMap K V} {k : K} (h : m.contains k = true) (v : V) :
    (m.insert k v).keys = m.keys := by
  rw [keys_insert, Finset.insert_eq_of_mem (mem_keys_iff.mpr (contains_eq_true.mp h))]

@[simp] theorem keys_erase (m : FinMap K V) (k : K) : (m.erase k).keys = m.keys.erase k := rfl

theorem size_insert (m : FinMap K V) (k : K) (v : V) :
    (m.insert k v).size = if m.contains k then m.size else m.size + 1 := by
  unfold size
  rw [keys_insert]
  by_cases h : k ∈ m.keys
  · have hc : m.contains k = true := contains_eq_true.mpr (mem_keys_iff.mp h)
    rw [Finset.insert_eq_of_mem h, hc, if_pos rfl]
  · have hc : m.contains k = false := contains_eq_false.mpr (notMem_keys_iff.mp h)
    rw [Finset.card_insert_of_notMem h, hc]; rfl

theorem size_erase (m : FinMap K V) (k : K) :
    (m.erase k).size = if m.contains k then m.size - 1 else m.size := by
  unfold size
  rw [keys_erase]
  by_cases h : k ∈ m.keys
  · have hc : m.contains k = true := contains_eq_true.mpr (mem_keys_iff.mp h)
    rw [Finset.card_erase_of_mem h, hc, if_pos rfl]
  · have hc : m.contains k = false := contains_eq_false.mpr (notMem_keys_iff.mp h)
    rw [Finset.erase_eq_of_notMem h, hc]; rfl

theorem sumVals_erase (m : FinMap K V) (f : K → V → Nat) (k : K) :
    (m.erase k).sumVals f + (m.get k).elim 0 (f k) = m.sumVals f := by
  unfold sumVals
  have hrest : ∑ a ∈ (m.erase k).keys, ((m.erase k).get a).elim 0 (f a) =
      ∑ a ∈ m.keys.erase k, (m.get a).elim 0 (f a) := by
    rw [keys_erase]
    refine Finset.sum_congr rfl fun a ha => ?_
    rw [get_erase_of_ne m (Finset.ne_of_mem_erase ha)]
  rw [hrest]
  by_cases hk : k ∈ m.keys
  · rw [Finset.sum_erase_add _ _ hk]
  · rw [Finset.erase_eq_of_notMem hk, notMem_keys_iff.mp hk]; rfl

theorem sumVals_insert (m : FinMap K V) (f : K → V → Nat) (k : K) (v : V) :
    (m.insert k v).sumVals f + (m.get k).elim 0 (f k) = m.sumVals f + f k v := by
  have h := sumVals_erase (m.insert k v) f k
  have hsame : (m.insert k v).erase k = m.erase k := by
    ext1 a
    rw [get_erase, get_erase, get_insert]
    split <;> simp_all
  rw [hsame, get_insert_self] at h
  have h' := sumVals_erase m f k
  simp only [Option.elim_some] at h
  omega

/-- `m` is contained in `m'`: every entry of `m` is an entry of `m'`. -/
def Le (m m' : FinMap K V) : Prop := ∀ k v, m.get k = some v → m'.get k = some v

omit [DecidableEq K] in
theorem Le.keys_subset {m m' : FinMap K V} (h : m.Le m') : m.keys ⊆ m'.keys := by
  intro k hk
  obtain ⟨v, hv⟩ := mem_keys_iff.mp hk
  exact mem_keys_iff.mpr ⟨v, h k v hv⟩

omit [DecidableEq K] in
/-- **A map contained in another of the same size is that map.** -/
theorem eq_of_le_of_size {m m' : FinMap K V} (h : m.Le m') (hs : m'.size ≤ m.size) : m = m' := by
  have hk : m.keys = m'.keys := Finset.eq_of_subset_of_card_le h.keys_subset hs
  ext1 k
  cases hg : m.get k with
  | some v => exact (h k v hg).symm
  | none =>
    have : k ∉ m'.keys := by rw [← hk]; exact notMem_keys_iff.mpr hg
    exact (notMem_keys_iff.mp this).symm

theorem Le.insert {m m' : FinMap K V} (h : m.Le m') {k : K} {v : V} (hv : m'.get k = some v) :
    (m.insert k v).Le m' := by
  intro a w ha
  rw [get_insert] at ha
  split at ha
  · rename_i heq; subst heq; cases ha; exact hv
  · exact h a w ha

theorem insert_of_get (m : FinMap K V) {k : K} {v : V} (h : m.get k = some v) : m.insert k v = m := by
  ext1 a
  rw [get_insert]
  split
  · rename_i ha; rw [ha, h]
  · rfl

/-- Inserting entries of `m'` one by one stays within `m'` and covers what was inserted. -/
theorem foldl_insert_le (m' : FinMap K V) : ∀ (l : List (K × V)) (m : FinMap K V), m.Le m' →
    (∀ e ∈ l, m'.get e.1 = some e.2) →
    (l.foldl (fun m e => m.insert e.1 e.2) m).Le m' ∧
      ∀ k v, (k, v) ∈ l ∨ m.get k = some v →
        (l.foldl (fun m e => m.insert e.1 e.2) m).get k = some v
  | [], _, hle, _ => ⟨hle, fun _ _ h => h.resolve_left List.not_mem_nil⟩
  | e :: l, m, hle, hl => by
    have he := hl e List.mem_cons_self
    have ih := foldl_insert_le m' l (m.insert e.1 e.2) (hle.insert he)
      fun e' he' => hl e' (List.mem_cons_of_mem _ he')
    refine ⟨ih.1, fun k v h => ih.2 k v ?_⟩
    rcases h with h | h
    · rcases List.mem_cons.mp h with rfl | h
      · exact Or.inr (get_insert_self _ _ _)
      · exact Or.inl h
    · right
      by_cases hk : k = e.1
      · rw [hk, get_insert_self, ← he, ← hk, hle k v h]
      · rw [get_insert_of_ne _ _ hk, h]

/-- **A map is rebuilt from its entries, in any order.** -/
theorem foldl_insert_eq {l : List (K × V)} {m' : FinMap K V}
    (h : ∀ k v, (k, v) ∈ l ↔ m'.get k = some v) :
    l.foldl (fun m e => m.insert e.1 e.2) ∅ = m' := by
  obtain ⟨hle, hcov⟩ := foldl_insert_le m' l ∅ (fun _ _ h => by cases h)
    fun e he => (h e.1 e.2).mp he
  ext1 k
  refine Option.ext fun v => ⟨hle k v, fun hv => hcov k v (Or.inl ((h k v).mpr hv))⟩

end FinMap

/-! ## Unordered iteration -/

namespace EdgeConnect

variable {κ : Type*}

/-- The elements of a set: those of `hint` in its order after the others. -/
def visit [LinearOrder κ] (hint : List κ) (s : Finset κ) : List κ :=
  ((s.sort (· ≤ ·) ++ hint).filter fun k => k ∈ s).dedup

theorem mem_visit [LinearOrder κ] {hint : List κ} {s : Finset κ} {k : κ} : k ∈ visit hint s ↔ k ∈ s := by
  unfold visit
  rw [List.mem_dedup, List.mem_filter, List.mem_append, Finset.mem_sort, decide_eq_true_iff]
  exact ⟨fun h => h.2, fun h => ⟨.inl h, h⟩⟩

end EdgeConnect
