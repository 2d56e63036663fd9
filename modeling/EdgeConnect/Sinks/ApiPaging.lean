import EdgeConnect.Lib.Pages
import EdgeConnect.Products
import Mathlib.Data.Prod.Lex
import Mathlib.Data.String.Basic

/-!
# Paging of the product catalog (`src/sinks/api.rs`)

* `Build` — how a build adds `usize`s: a checked one stops at an overflow, a wrapping one drops the carry;
* `productsResponse` — what `products_list` answers, with the additions and the slice of the source;
* `catalogLE_antisymm` — the order of `sort_catalog` separates any two keys, so that the listing is the same whatever
  order the map is iterated in (`sortCatalog_perm`);
* `covers_iff` — the requests that are answered as documented: those whose cursor and limit add up.
-/

set_option autoImplicit false

namespace EdgeConnect.Products

open Text Sources

/-! ## `products_list` in machine arithmetic -/

inductive Build where
  | checked
  | wrapping
  deriving DecidableEq, Repr

/-- A sum of `usize`s; `none` is a panic, as it is below. -/
def Build.add (b : Build) (x y : Nat) : Option Nat :=
  match b with
  | .checked => if x + y < 2 ^ 64 then some (x + y) else none
  | .wrapping => some ((x + y) % 2 ^ 64)

/-- `&xs[start..stop]`. -/
def slice {α : Type} (xs : List α) (start stop : Nat) : Option (List α) :=
  if start ≤ stop ∧ stop ≤ xs.length then some ((xs.drop start).take (stop - start)) else none

/-- The order of the catalog before `sort_catalog`. -/
def identityLE (a b : NormalizedInstrument) : Bool :=
  a.channel < b.channel ∨ a.channel = b.channel ∧ a.instrumentId ≤ b.instrumentId

/-- The two stable sorts of `products_list`. -/
def sortCatalog (instruments : List NormalizedInstrument) : List NormalizedInstrument :=
  (instruments.mergeSort identityLE).mergeSort catalogLE

/-- The page a request asks for. -/
def pageOf {α : Type} (b : Build) (sorted : List α) (limit : Option Nat) (offset : Nat) : Option (List α) :=
  let start := min offset sorted.length
  match limit with
  | none => slice sorted start sorted.length
  | some n => do
    let stop ← b.add start n
    slice sorted start (min stop sorted.length)

/-- The cursor behind the page, reported only when more remain. -/
def nextCursor (b : Build) (total : Nat) (limit : Option Nat) (offset : Nat) : Option (Option Nat) :=
  match limit with
  | none => some none
  | some n => do
    let next ← b.add offset n
    return if next < total then some next else none

/-- A product under its id. -/
def productEntry (instruments : List NormalizedInstrument) (i : NormalizedInstrument) : NormalizedInstrument × String :=
  (i, (ProductId.of i).render (isAmbiguous instruments i.venue i.symbol))

/-- `products_list`: an error, or the page and the cursor of the response. -/
def productsResponse (b : Build) (instruments : List NormalizedInstrument) (limit cursor : Option String) :
    Except ListError (Option (List (NormalizedInstrument × String) × Option String)) := do
  let limit ← parseLimit limit
  let offset ← parseCursor cursor
  return do
    let sorted := sortCatalog instruments
    let page ← pageOf b sorted limit offset
    let next ← nextCursor b sorted.length limit offset
    return (page.map (productEntry instruments), next.map Nat.repr)

/-! ## The order of the catalog -/

theorem catalogLE_iff {a b : NormalizedInstrument} :
    catalogLE a b = true ↔
      toLex (a.venue, toLex (a.sourceId, toLex (a.category, toLex (a.channel, a.instrumentId)))) ≤
        toLex (b.venue, toLex (b.sourceId, toLex (b.category, toLex (b.channel, b.instrumentId)))) := by
  simp only [catalogLE, Prod.Lex.toLex_le_toLex, decide_eq_true_eq]

theorem catalogLE_trans (a b c : NormalizedInstrument) (hab : catalogLE a b = true) (hbc : catalogLE b c = true) :
    catalogLE a c = true := by
  rw [catalogLE_iff] at *
  exact hab.trans hbc

theorem catalogLE_total (a b : NormalizedInstrument) : (catalogLE a b || catalogLE b a) = true := by
  rw [Bool.or_eq_true, catalogLE_iff, catalogLE_iff]
  exact le_total _ _

/-- Definitions neither of which is sorted ahead of the other have one key. -/
theorem catalogLE_antisymm {a b : NormalizedInstrument} (hab : catalogLE a b = true) (hba : catalogLE b a = true) :
    keyOf a = keyOf b := by
  rw [catalogLE_iff] at hab hba
  have heq := le_antisymm hab hba
  simp only [toLex_inj, Prod.mk.injEq] at heq
  obtain ⟨hvenue, hsource, hcategory, hchannel, hid⟩ := heq
  unfold keyOf
  rw [hvenue, hsource, hcategory, hchannel, hid]

variable {instruments : List NormalizedInstrument}

theorem sortCatalog_perm_self (instruments : List NormalizedInstrument) : (sortCatalog instruments).Perm instruments :=
  (List.mergeSort_perm _ _).trans (List.mergeSort_perm _ _)

theorem length_sortCatalog : (sortCatalog instruments).length = instruments.length :=
  (sortCatalog_perm_self instruments).length_eq

theorem sortCatalog_pairwise (instruments : List NormalizedInstrument) :
    (sortCatalog instruments).Pairwise fun a b => catalogLE a b = true :=
  List.pairwise_mergeSort catalogLE_trans catalogLE_total _

/-- The order a list with one definition a key is sorted into is the only one. -/
theorem eq_sortCatalog {sorted : List NormalizedInstrument} (hkeyed : (instruments.map keyOf).Nodup)
    (hperm : sorted.Perm instruments) (hsorted : sorted.Pairwise fun a b => catalogLE a b = true) :
    sorted = sortCatalog instruments := by
  have hinj : ∀ a ∈ sorted, ∀ b ∈ sorted, keyOf a = keyOf b → a = b := by
    intro a ha b hb hkey
    exact List.inj_on_of_nodup_map hkeyed (hperm.mem_iff.mp ha) (hperm.mem_iff.mp hb) hkey
  refine (hperm.trans (sortCatalog_perm_self instruments).symm).eq_of_pairwise ?_ hsorted (sortCatalog_pairwise _)
  intro a b ha hb hab hba
  have hb := hperm.mem_iff.mpr ((sortCatalog_perm_self instruments).mem_iff.mp hb)
  exact hinj a ha b hb (catalogLE_antisymm hab hba)

/-- The order of the listing is not the map's. -/
theorem sortCatalog_perm {other : List NormalizedInstrument} (hkeyed : (instruments.map keyOf).Nodup)
    (hperm : other.Perm instruments) : sortCatalog other = sortCatalog instruments :=
  eq_sortCatalog hkeyed ((sortCatalog_perm_self other).trans hperm) (sortCatalog_pairwise other)

/-- The first sort leaves no trace. -/
theorem sortCatalog_eq (hkeyed : (instruments.map keyOf).Nodup) : instruments.mergeSort catalogLE = sortCatalog instruments :=
  eq_sortCatalog hkeyed (List.mergeSort_perm _ _) (List.pairwise_mergeSort catalogLE_trans catalogLE_total _)

/-! ## One request -/

/-- The cursor and the limit have a sum. -/
def Adds (limit : Option Nat) (offset : Nat) : Prop := ∀ n, limit = some n → offset + n < 2 ^ 64

variable {limit cursor : Option String} {n : Option Nat} {offset : Nat}

theorem parseLimit_ok (h : parseLimit limit = .ok n) : ∀ k, n = some k → 0 < k ∧ k < 2 ^ 64 := by
  rintro k rfl
  cases limit with
  | none => cases h
  | some s =>
    unfold parseLimit at h
    dsimp only at h
    split at h
    · rename_i m hm
      split_ifs at h with hpos
      cases h
      have hle := parseUnsigned_le hm
      exact ⟨hpos, by omega⟩
    · cases h

theorem parseCursor_repr {m : Nat} (h : m < 2 ^ 64) : parseCursor (some m.repr) = .ok m := by
  unfold parseCursor
  dsimp only
  rw [parseUnsigned_repr (by omega)]

theorem Build.add_eq (b : Build) {x y : Nat} (h : x + y < 2 ^ 64) : b.add x y = some (x + y) := by
  cases b with
  | checked => exact if_pos h
  | wrapping => exact congrArg some (Nat.mod_eq_of_lt h)

/-- Without an overflow the bounds of the slice are in order, and it has the page. -/
theorem pageOf_eq {α : Type} (b : Build) (sorted : List α) (h : Adds n offset) :
    pageOf b sorted n offset = some (Pages.page sorted n offset) := by
  unfold pageOf
  dsimp only
  cases n with
  | none =>
    unfold slice Pages.page
    rw [if_pos ⟨Nat.min_le_right _ _, Nat.le_refl _⟩, List.take_of_length_le (by rw [List.length_drop])]
    rcases Nat.le_total offset sorted.length with hle | hle
    · rw [Nat.min_eq_left hle]
    · rw [Nat.min_eq_right hle, List.drop_length, List.drop_of_length_le hle]
  | some k =>
    have hsum := h k rfl
    dsimp only
    rw [b.add_eq (by omega)]
    show slice sorted _ _ = _
    unfold slice Pages.page
    rw [if_pos (by omega)]
    rcases Nat.le_total offset sorted.length with hle | hle
    · rw [Nat.min_eq_left hle]
      refine congrArg some (List.take_eq_take_iff.mpr ?_)
      rw [List.length_drop]
      omega
    · rw [Nat.min_eq_right hle, List.drop_length, List.drop_of_length_le hle, List.take_nil]
      exact congrArg some List.take_nil.symm

theorem nextCursor_eq {α : Type} (b : Build) (sorted : List α) (h : Adds n offset) :
    nextCursor b sorted.length n offset = some (Pages.next sorted n offset) := by
  unfold nextCursor Pages.next
  cases n with
  | none => rfl
  | some k =>
    dsimp only
    rw [b.add_eq (h k rfl)]
    rfl

/-- A checked build stops at an overflow, in the bound of the slice or in the next cursor. -/
theorem checked_overflow {α : Type} (sorted : List α) (h : ¬ Adds n offset) :
    nextCursor .checked sorted.length n offset = none := by
  unfold Adds at h
  push Not at h
  obtain ⟨k, rfl, hsum⟩ := h
  unfold nextCursor Build.add
  dsimp only
  rw [if_neg (by omega)]
  rfl

/-- A wrapping build goes on to a slice out of range, or to an empty page with a cursor that falls behind. -/
theorem wrapping_overflow {α : Type} {sorted page : List α} {k : Nat} {next : Option Nat} (hk : k < 2 ^ 64)
    (ho : offset < 2 ^ 64) (h : 2 ^ 64 ≤ offset + k) (hpage : pageOf .wrapping sorted (some k) offset = some page)
    (hnext : nextCursor .wrapping sorted.length (some k) offset = some next) :
    page = [] ∧ ∀ m, next = some m → m < offset := by
  constructor
  · unfold pageOf Build.add slice at hpage
    simp only [Option.bind_eq_bind, Option.bind_some] at hpage
    split_ifs at hpage with hrange
    cases hpage
    refine List.take_eq_nil_iff.mpr (.inr (List.drop_eq_nil_iff.mpr ?_))
    omega
  · rintro m rfl
    unfold nextCursor Build.add at hnext
    simp only [Option.bind_eq_bind, Option.bind_some, Option.pure_def, Option.some.injEq] at hnext
    split_ifs at hnext
    cases hnext
    omega

/-- A request with a limit and a cursor that parse. -/
theorem productsResponse_ok (b : Build) (hlimit : parseLimit limit = .ok n) (hcursor : parseCursor cursor = .ok offset) :
    productsResponse b instruments limit cursor =
      .ok ((pageOf b (sortCatalog instruments) n offset).bind fun page =>
        (nextCursor b (sortCatalog instruments).length n offset).bind fun next =>
          some (page.map (productEntry instruments), next.map Nat.repr)) := by
  unfold productsResponse
  rw [hlimit, hcursor]
  rfl

/-- A request whose cursor and limit add up. -/
theorem productsResponse_eq (b : Build) (hlimit : parseLimit limit = .ok n) (hcursor : parseCursor cursor = .ok offset)
    (h : Adds n offset) :
    productsResponse b instruments limit cursor =
      .ok (some ((Pages.page (sortCatalog instruments) n offset).map (productEntry instruments),
        (Pages.next (sortCatalog instruments) n offset).map Nat.repr)) := by
  rw [productsResponse_ok b hlimit hcursor, pageOf_eq b _ h, nextCursor_eq b _ h]
  rfl

/-- Where nothing overflows the response is the one without bounds on its numbers. -/
theorem productsResponse_productsList (b : Build) (hkeyed : (instruments.map keyOf).Nodup)
    (hlimit : parseLimit limit = .ok n) (hcursor : parseCursor cursor = .ok offset) (h : Adds n offset) :
    productsResponse b instruments limit cursor =
      (productsList instruments limit cursor).map fun r => some (r.1, r.2.map Nat.repr) := by
  rw [productsResponse_eq b hlimit hcursor h]
  unfold productsList
  rw [hlimit, hcursor, sortCatalog_eq hkeyed]
  cases n <;> rfl

theorem productsResponse_checked (hlimit : parseLimit limit = .ok n) (hcursor : parseCursor cursor = .ok offset)
    (h : ¬ Adds n offset) : productsResponse .checked instruments limit cursor = .ok none := by
  rw [productsResponse_ok .checked hlimit hcursor, checked_overflow _ h]
  cases pageOf .checked (sortCatalog instruments) n offset <;> rfl

/-! ## The walk -/

/-- The products a client is given that sends no cursor first, and the cursor of each response after it. -/
def listing (b : Build) (instruments : List NormalizedInstrument) (limit : Option String) (requests : Nat) :
    Option (List (NormalizedInstrument × String)) :=
  Pages.walk (fun cursor =>
    match productsResponse b instruments limit cursor with
    | .ok (some (page, next)) => some (page, next.map some)
    | _ => none) requests none

/-- The cursor that asks for an offset. -/
def cursorOf : Nat → Option String
  | 0 => none
  | m + 1 => some (m + 1).repr

theorem parseCursor_cursorOf {m : Nat} (h : m < 2 ^ 64) : parseCursor (cursorOf m) = .ok m := by
  cases m with
  | zero => rfl
  | succ m => exact parseCursor_repr h

theorem cursorOf_pos {m : Nat} (h : 0 < m) : cursorOf m = some m.repr := by
  cases m with
  | zero => cases h
  | succ m => rfl

/-- No `Vec` is so long that an offset of a walk and the limit overflow. -/
theorem Reached.adds {xs : List (NormalizedInstrument × String)} (hlen : xs.length < 2 ^ 63)
    (hlimit : parseLimit limit = .ok n) (h : Pages.Reached xs n offset) : Adds n offset := by
  intro k hk
  obtain ⟨-, hlt⟩ := parseLimit_ok hlimit k hk
  rcases h with rfl | ⟨hoffset, hle⟩
  · omega
  · have := hle k hk
    omega

/-- The walk has the whole catalog, after a request for each product at most. -/
theorem listing_eq (b : Build) (hlen : instruments.length < 2 ^ 63) (hlimit : parseLimit limit = .ok n) :
    listing b instruments limit (instruments.length + 1) =
      some ((sortCatalog instruments).map (productEntry instruments)) := by
  have hlength : ((sortCatalog instruments).map (productEntry instruments)).length = instruments.length := by
    rw [List.length_map, length_sortCatalog]
  have hpos : ∀ k, n = some k → 0 < k := fun k hk => (parseLimit_ok hlimit k hk).1
  refine Pages.walk_eq_drop _ cursorOf hpos ?_ _ 0 (.inl rfl) ?_
  · intro offset hreached
    have hadds := Reached.adds (by rwa [hlength]) hlimit hreached
    have hoffset : offset < 2 ^ 64 := by
      rcases hreached with rfl | ⟨hlt, -⟩ <;> omega
    rw [productsResponse_eq b hlimit (parseCursor_cursorOf hoffset) hadds, Pages.page_map]
    refine congrArg some (Prod.ext rfl ?_)
    rw [Option.map_map, Pages.next_map]
    cases hnext : Pages.next (sortCatalog instruments) n offset with
    | none => rfl
    | some m =>
      obtain ⟨k, hk, -, rfl⟩ := Pages.next_eq_some.mp hnext
      have hpos := (parseLimit_ok hlimit k hk).1
      exact congrArg some (cursorOf_pos (by omega)).symm
  · omega

/-! ## The requests that are answered -/

/-- Every build answers with the products that follow the cursor, as many as the limit allows, and with a cursor, behind
the one of the request, exactly when products remain. -/
def Serves (instruments : List NormalizedInstrument) (limit cursor : Option String) (n : Option Nat) (offset : Nat) :
    Prop :=
  ∃ page next, (∀ b, productsResponse b instruments limit cursor = .ok (some (page, next))) ∧
    page.map Prod.fst = Pages.page (sortCatalog instruments) n offset ∧
    (next.isSome ↔ (sortCatalog instruments).drop (offset + page.length) ≠ []) ∧
    ∀ c, next = some c → ∃ m, parseCursor (some c) = .ok m ∧ offset < m

/-- A walk with the limit ends, and has listed each product once. -/
def ListsOnce (instruments : List NormalizedInstrument) (limit : Option String) : Prop :=
  ∀ b, ∃ listed, listing b instruments limit (instruments.length + 1) = some listed ∧
    listed.map Prod.fst = sortCatalog instruments ∧ (listed.map Prod.fst).Perm instruments

/-- A request, and the walk with its limit, over a catalog whose order is its own. -/
structure Covers (instruments : List NormalizedInstrument) (limit cursor : Option String) (n : Option Nat)
    (offset : Nat) : Prop where
  serves : Serves instruments limit cursor n offset
  once : ListsOnce instruments limit
  order : ∀ other, other.Perm instruments → sortCatalog other = sortCatalog instruments

theorem serves_of_adds (hlimit : parseLimit limit = .ok n) (hcursor : parseCursor cursor = .ok offset)
    (h : Adds n offset) : Serves instruments limit cursor n offset := by
  refine ⟨_, _, fun b => productsResponse_eq b hlimit hcursor h, ?_, ?_, ?_⟩
  · rw [List.map_map]
    exact List.map_id _
  · rw [Option.isSome_map, List.length_map, ← Pages.next_isSome_iff]
  · intro c hc
    obtain ⟨m, hnext, rfl⟩ := Option.map_eq_some_iff.mp hc
    obtain ⟨k, hk, -, rfl⟩ := Pages.next_eq_some.mp hnext
    have hpos := (parseLimit_ok hlimit k hk).1
    exact ⟨_, parseCursor_repr (h k hk), by omega⟩

theorem adds_of_serves (hlimit : parseLimit limit = .ok n) (hcursor : parseCursor cursor = .ok offset)
    (h : Serves instruments limit cursor n offset) : Adds n offset := by
  obtain ⟨page, next, hanswer, -⟩ := h
  by_contra hover
  have hpanic : productsResponse .checked instruments limit cursor = .ok none :=
    productsResponse_checked hlimit hcursor hover
  rw [hanswer .checked] at hpanic
  cases hpanic

theorem listsOnce (hlen : instruments.length < 2 ^ 63) (hlimit : parseLimit limit = .ok n) :
    ListsOnce instruments limit := by
  intro b
  have hlist : ((sortCatalog instruments).map (productEntry instruments)).map Prod.fst = sortCatalog instruments := by
    rw [List.map_map]
    exact List.map_id _
  refine ⟨_, listing_eq b hlen hlimit, hlist, ?_⟩
  rw [hlist]
  exact sortCatalog_perm_self instruments

/-- **The catalog is paged as documented exactly when the cursor and the limit add up** to a `usize`: the response has
the products behind the cursor, and from no cursor on each product is listed once, in an order that is not the map's. -/
theorem covers_iff (hkeyed : (instruments.map keyOf).Nodup) (hlen : instruments.length < 2 ^ 63)
    (hlimit : parseLimit limit = .ok n) (hcursor : parseCursor cursor = .ok offset) :
    Covers instruments limit cursor n offset ↔ ∀ k, n = some k → offset + k < 2 ^ 64 := by
  constructor
  · exact fun h => adds_of_serves hlimit hcursor h.serves
  · intro hadds
    exact ⟨serves_of_adds hlimit hcursor hadds, listsOnce hlen hlimit, fun other => sortCatalog_perm hkeyed⟩

def btc : NormalizedInstrument := ⟨"HYPERLIQUID", 1, "BTC", 0, 7, "perps"⟩

def eth : NormalizedInstrument := ⟨"HYPERLIQUID", 1, "ETH", 0, 8, "perps"⟩

/-- A limit of `usize::MAX` is accepted, and behind the first product neither build has an answer. -/
theorem products_overflow :
    parseLimit (some "18446744073709551615") = .ok (some 18446744073709551615) ∧ parseCursor (some "1") = .ok 1 ∧
      (∀ b, productsResponse b [btc] (some "18446744073709551615") (some "1") = .ok none) ∧
      ¬ Covers [btc] (some "18446744073709551615") (some "1") (some 18446744073709551615) 1 := by
  have hlimit : parseLimit (some "18446744073709551615") = .ok (some 18446744073709551615) := by decide
  have hcursor : parseCursor (some "1") = .ok 1 := by decide
  have hpanic : ∀ b, productsResponse b [btc] (some "18446744073709551615") (some "1") = .ok none := by
    intro b
    rw [productsResponse_ok b hlimit hcursor]
    unfold sortCatalog
    rw [List.mergeSort_singleton, List.mergeSort_singleton]
    cases b <;> decide
  refine ⟨hlimit, hcursor, hpanic, ?_⟩
  intro h
  obtain ⟨page, next, hanswer, -⟩ := h.serves
  have hnone := hpanic .wrapping
  rw [hanswer .wrapping] at hnone
  cases hnone

theorem covers_iff_first :
    Covers [eth, btc] (some "1") none (some 1) 0 :=
  Iff.mpr (covers_iff (by decide) (by decide) (by decide) rfl) (by
    rintro k hk
    cases hk
    decide)

end EdgeConnect.Products
