import EdgeConnect.Lib.Runs
import EdgeConnect.Model.Materialize
import EdgeConnect.Sinks.Hyperliquid
import Mathlib.Data.Nat.Log

/-!
# Significant-figure aggregation (`src/sinks/hyperliquid.rs`)

* `normalize` — the views a subscription can ask for;
* `aggregatePrice`, `bucketSide` — a price rounded into its bucket, and a side merged by bucket;
* `increment_dvd` — a power of ten is a multiple of every increment below it, which is what makes the rounding monotone
  where a price gains a digit (`down_mono`, `up_mono`);
* `bucketSide_classes` — a bucketed side is the first classes of its levels by bucket.

Prices are on the `10^-8` grid, as the rounding takes them; sizes are of a type with exact sums.
-/

set_option autoImplicit false

namespace EdgeConnect.Hl

/-! ## The views -/

def DEFAULT_LEVELS : Nat := 20

def MAX_LEVELS : Nat := 100

def MAX_COIN_LEN : Nat := 32

structure L2View where
  nSigFigs : Option Nat
  mantissa : Option Nat
  nLevels : Nat
  deriving DecidableEq, Repr

/-- A subscription as received, before defaults and validation. -/
inductive SubIn where
  | l2Book (coin : String) (nSigFigs mantissa nLevels : Option Nat)
  | l4Book (coin : String)
  | trades (coin : String)
  deriving DecidableEq, Repr

/-- The coin check of `normalize`; `debug` is how a coin is quoted in an error. -/
def checkCoin (debug : String → String) (coin : String) : Except String String :=
  if coin.isEmpty ∨ coin.utf8ByteSize > MAX_COIN_LEN then .error ("Invalid subscription: bad coin " ++ debug coin)
  else .ok coin

/-- The checks of `normalize` on an `l2Book` view. -/
def checkView (nSigFigs mantissa nLevels : Option Nat) : Except String Unit :=
  if nSigFigs.any fun n => ¬ (2 ≤ n ∧ n ≤ 5) then
    .error ("Invalid subscription: nSigFigs " ++ toString (nSigFigs.getD 0) ++ " not in 2..=5")
  else
    match mantissa with
    | some m =>
      if nSigFigs = some 5 ∧ (m = 1 ∨ m = 2 ∨ m = 5) then checkLevels
      else .error ("Invalid subscription: mantissa " ++ toString m ++ " must be 1, 2 or 5 at nSigFigs 5")
    | none => checkLevels
where
  checkLevels : Except String Unit :=
    if nLevels = some 0 then .error "Invalid subscription: nLevels must be > 0" else .ok ()

/-- `normalize`. -/
def normalize (debug : String → String) : SubIn → Except String Sub
  | .trades coin => (checkCoin debug coin).map .trades
  | .l4Book coin => (checkCoin debug coin).map .l4Book
  | .l2Book coin nSigFigs mantissa nLevels =>
    (checkCoin debug coin).bind fun coin =>
      (checkView nSigFigs mantissa nLevels).map fun _ =>
        .l2Book coin nSigFigs mantissa (min (nLevels.getD DEFAULT_LEVELS) MAX_LEVELS)

/-- A rounding a view may ask for: two to five figures, a mantissa of `2` or `5` only at five. -/
def Rounding (n : Nat) (mantissa : Option Nat) : Prop :=
  2 ≤ n ∧ n ≤ 5 ∧ (mantissa = none ∨ mantissa = some 1 ∨ n = 5 ∧ (mantissa = some 2 ∨ mantissa = some 5))

/-- A view that asks for such a rounding, or for none. -/
def Viewed (nSigFigs mantissa : Option Nat) : Prop := ∀ n, nSigFigs = some n → Rounding n mantissa

theorem checkView_ok {nSigFigs mantissa nLevels : Option Nat} {u : Unit} (h : checkView nSigFigs mantissa nLevels = .ok u) :
    Viewed nSigFigs mantissa ∧ nLevels ≠ some 0 := by
  have hlevels : checkView.checkLevels nLevels = .ok u → nLevels ≠ some 0 := by
    unfold checkView.checkLevels
    split
    · intro he
      cases he
    · intro _ he
      contradiction
  unfold checkView at h
  split at h
  · cases h
  · rename_i hsig
    have hrange : ∀ n, nSigFigs = some n → 2 ≤ n ∧ n ≤ 5 := by
      rintro n rfl
      simp at hsig
      omega
    split at h
    · rename_i m
      split at h
      · rename_i hm
        refine ⟨?_, hlevels h⟩
        rintro n rfl
        obtain ⟨hn, hm⟩ := hm
        cases hn
        refine ⟨by decide, by decide, ?_⟩
        rcases hm with rfl | rfl | rfl <;> simp
      · cases h
    · refine ⟨?_, hlevels h⟩
      intro n hn
      exact ⟨(hrange n hn).1, (hrange n hn).2, .inl rfl⟩

/-- Whatever is subscribed to asks for such a rounding, or for none, and for one level at least. -/
theorem normalize_view {debug : String → String} {s : SubIn} {coin : String} {nSigFigs mantissa : Option Nat}
    {nLevels : Nat} (h : normalize debug s = .ok (.l2Book coin nSigFigs mantissa nLevels)) :
    Viewed nSigFigs mantissa ∧ 0 < nLevels ∧ nLevels ≤ MAX_LEVELS := by
  cases s with
  | trades c =>
    simp only [normalize] at h
    cases hc : checkCoin debug c <;> simp [hc, Except.map] at h
  | l4Book c =>
    simp only [normalize] at h
    cases hc : checkCoin debug c <;> simp [hc, Except.map] at h
  | l2Book c ns m nl =>
    simp only [normalize] at h
    cases hc : checkCoin debug c with
    | error e => simp [hc, Except.bind] at h
    | ok c' =>
      cases hv : checkView ns m nl with
      | error e => simp [hc, hv, Except.bind, Except.map] at h
      | ok u =>
        simp only [hc, hv, Except.bind, Except.map, Except.ok.injEq, Sub.l2Book.injEq] at h
        obtain ⟨-, rfl, rfl, rfl⟩ := h
        obtain ⟨hround, hlevels⟩ := checkView_ok hv
        refine ⟨hround, ?_, Nat.min_le_right _ _⟩
        cases nl with
        | none => decide
        | some k =>
          have hk : k ≠ 0 := fun hk => hlevels (by rw [hk])
          simp only [Option.getD_some, MAX_LEVELS]
          omega

/-! ## Rounding -/

/-- `digits` of `aggregate_price`. -/
def digits (v : Nat) : Nat := if v = 0 then 1 else Nat.log 10 v + 1

/-- The bucket increment; `none` where the power of ten exceeds a `u64`. -/
def increment (v n : Nat) (mantissa : Option Nat) : Option Nat :=
  let pow := 10 ^ (digits v - n)
  if pow < 2 ^ 64 then some (min (mantissa.getD 1 * pow) (2 ^ 64 - 1)) else none

/-- The bucket of a price, bids rounded down and asks up. -/
def bucketed (v inc : Nat) (isBid : Bool) : Nat := if isBid then v / inc * inc else (v + (inc - 1)) / inc * inc

/-- `aggregate_price`: a bucket that exceeds a `u64` leaves the price as it is. -/
def aggregatePrice (v : Nat) (isBid : Bool) (nSigFigs mantissa : Option Nat) : Nat :=
  match nSigFigs with
  | none => v
  | some n =>
    match increment v n mantissa with
    | none => v
    | some inc => if bucketed v inc isBid < 2 ^ 64 then bucketed v inc isBid else v

theorem lt_pow_digits (v : Nat) : v < 10 ^ digits v := by
  unfold digits
  split
  · rename_i h
    simp [h]
  · exact Nat.lt_pow_succ_log_self (by decide) v

theorem pow_digits_le {v : Nat} (h : 1 < digits v) : 10 ^ (digits v - 1) ≤ v := by
  unfold digits at h ⊢
  split at h
  · omega
  · rename_i hv
    rw [if_neg hv, Nat.add_sub_cancel]
    exact Nat.pow_log_le_self 10 hv

theorem digits_pos (v : Nat) : 0 < digits v := by
  unfold digits
  split <;> omega

theorem digits_mono {v w : Nat} (h : v ≤ w) : digits v ≤ digits w := by
  unfold digits
  split
  · split <;> omega
  · rw [if_neg (by omega)]
    have := Nat.log_mono_right (b := 10) h
    omega

theorem digits_le {v : Nat} (h : v < 2 ^ 64) : digits v ≤ 20 := by
  by_contra hlt
  have hpow := pow_digits_le (v := v) (by omega)
  have hle : 10 ^ 20 ≤ 10 ^ (digits v - 1) := Nat.pow_le_pow_right (by decide) (by omega)
  have h20 : (2 : Nat) ^ 64 < 10 ^ 20 := by decide
  omega

/-- The increment of a price. -/
def step (v n : Nat) (mantissa : Option Nat) : Nat := mantissa.getD 1 * 10 ^ (digits v - n)

section Rounds

variable {n : Nat} {mantissa : Option Nat}

theorem mantissa_dvd (h : Rounding n mantissa) : mantissa.getD 1 ∣ 10 ∧ 0 < mantissa.getD 1 := by
  obtain ⟨-, -, rfl | rfl | ⟨-, rfl | rfl⟩⟩ := h <;> decide

theorem step_pos (h : Rounding n mantissa) (v : Nat) : 0 < step v n mantissa :=
  Nat.mul_pos (mantissa_dvd h).2 (Nat.pow_pos (by decide))

/-- Within a `u64` the increment is never saturated. -/
theorem increment_eq (h : Rounding n mantissa) {v : Nat} (hv : v < 2 ^ 64) :
    increment v n mantissa = some (step v n mantissa) := by
  have hd := digits_le hv
  have hn := h.1
  have hpow : 10 ^ (digits v - n) ≤ 10 ^ 18 := Nat.pow_le_pow_right (by decide) (by omega)
  have h18 : (10 : Nat) ^ 18 * 5 < 2 ^ 64 - 1 := by decide
  have hm : mantissa.getD 1 ≤ 5 := by
    obtain ⟨-, -, rfl | rfl | ⟨-, rfl | rfl⟩⟩ := h <;> decide
  have hstep : step v n mantissa ≤ 5 * 10 ^ 18 := Nat.mul_le_mul hm hpow
  unfold increment
  rw [if_pos (by omega)]
  unfold step at hstep ⊢
  rw [Nat.min_eq_left (by omega)]

/-- A power of ten is a multiple of the increment of every price it bounds, or that it is the first of. -/
theorem increment_dvd (h : Rounding n mantissa) (v : Nat) {e : Nat} (hle : digits v - n + 1 ≤ e) :
    step v n mantissa ∣ 10 ^ e := by
  have hdvd : step v n mantissa ∣ 10 ^ (digits v - n + 1) := by
    rw [Nat.pow_succ, Nat.mul_comm]
    exact Nat.mul_dvd_mul_right (mantissa_dvd h).1 _
  exact hdvd.trans (Nat.pow_dvd_pow 10 hle)

end Rounds

theorem bucketed_bid_le (v inc : Nat) : bucketed v inc true ≤ v := Nat.div_mul_le_self v inc

theorem le_bucketed_ask (v : Nat) {inc : Nat} (hinc : 0 < inc) : v ≤ bucketed v inc false := by
  have h := Nat.lt_div_mul_add (a := v + (inc - 1)) hinc
  simp only [bucketed, Bool.false_eq_true, if_false]
  omega

/-- A bucket is a multiple of the increment less than one increment away. -/
theorem bucketed_near (v : Nat) {inc : Nat} (hinc : 0 < inc) (isBid : Bool) :
    inc ∣ bucketed v inc isBid ∧ v < bucketed v inc isBid + inc ∧ bucketed v inc isBid < v + inc := by
  cases isBid with
  | true =>
    have hlt := Nat.lt_div_mul_add (a := v) hinc
    have hle := bucketed_bid_le v inc
    exact ⟨Nat.dvd_mul_left _ _, hlt, by omega⟩
  | false =>
    have hle := le_bucketed_ask v hinc
    have hdown := Nat.div_mul_le_self (v + (inc - 1)) inc
    refine ⟨Nat.dvd_mul_left _ _, by omega, ?_⟩
    simp only [bucketed, Bool.false_eq_true, if_false]
    omega

/-- No multiple of the increment lies between a price and its bucket. -/
theorem le_bucketed_bid {v inc m : Nat} (hdvd : inc ∣ m) (h : m ≤ v) : m ≤ bucketed v inc true := by
  obtain ⟨k, rfl⟩ := hdvd
  rcases Nat.eq_zero_or_pos inc with rfl | hinc
  · simp
  · have hk : k ≤ v / inc := (Nat.le_div_iff_mul_le hinc).mpr (by rw [Nat.mul_comm]; exact h)
    calc inc * k ≤ inc * (v / inc) := Nat.mul_le_mul_left inc hk
      _ = bucketed v inc true := Nat.mul_comm _ _

theorem bucketed_ask_le {v inc m : Nat} (hinc : 0 < inc) (hdvd : inc ∣ m) (h : v ≤ m) : bucketed v inc false ≤ m := by
  obtain ⟨k, rfl⟩ := hdvd
  have hk : (v + (inc - 1)) / inc ≤ k := by
    rw [Nat.div_le_iff_le_mul_add_pred hinc]
    omega
  calc bucketed v inc false = inc * ((v + (inc - 1)) / inc) := Nat.mul_comm _ _
    _ ≤ inc * k := Nat.mul_le_mul_left inc hk

/-- **Monotone, also across a digit.** The power of ten at which the larger price gains its digit lies between the two
and is a multiple of both increments. -/
theorem bucketed_mono {n : Nat} {mantissa : Option Nat} (h : Rounding n mantissa) {v w : Nat} (hle : v ≤ w) (isBid : Bool) :
    bucketed v (step v n mantissa) isBid ≤ bucketed w (step w n mantissa) isBid := by
  have hn := h.1
  have hpos := digits_pos v
  rcases Nat.eq_or_lt_of_le (digits_mono hle) with hd | hd
  · have hstep : step v n mantissa = step w n mantissa := by
      unfold step
      rw [hd]
    rw [hstep]
    cases isBid with
    | true => exact Nat.mul_le_mul_right _ (Nat.div_le_div_right hle)
    | false => exact Nat.mul_le_mul_right _ (Nat.div_le_div_right (Nat.add_le_add_right hle _))
  · have hv : v ≤ 10 ^ (digits w - 1) :=
      Nat.le_of_lt (Nat.lt_of_lt_of_le (lt_pow_digits v) (Nat.pow_le_pow_right (by decide) (by omega)))
    have hw : 10 ^ (digits w - 1) ≤ w := pow_digits_le (by omega)
    have hdv : step v n mantissa ∣ 10 ^ (digits w - 1) := increment_dvd h v (by omega)
    have hdw : step w n mantissa ∣ 10 ^ (digits w - 1) := increment_dvd h w (by omega)
    cases isBid with
    | true => exact (bucketed_bid_le v _).trans (hv.trans (le_bucketed_bid hdw hw))
    | false => exact (bucketed_ask_le (step_pos h v) hdv hv).trans (hw.trans (le_bucketed_ask w (step_pos h w)))

/-- The bucket of the price fits a `u64`. -/
def InRange (v : Nat) (isBid : Bool) (nSigFigs mantissa : Option Nat) : Prop :=
  v < 2 ^ 64 ∧ ∀ n, nSigFigs = some n → bucketed v (step v n mantissa) isBid < 2 ^ 64

theorem inRange_bid {v : Nat} (hv : v < 2 ^ 64) (nSigFigs mantissa : Option Nat) : InRange v true nSigFigs mantissa :=
  ⟨hv, fun _ _ => Nat.lt_of_le_of_lt (bucketed_bid_le v _) hv⟩

theorem aggregatePrice_eq {n : Nat} {mantissa : Option Nat} (h : Rounding n mantissa) {v : Nat} {isBid : Bool}
    (hf : InRange v isBid (some n) mantissa) :
    aggregatePrice v isBid (some n) mantissa = bucketed v (step v n mantissa) isBid := by
  unfold aggregatePrice
  simp only [increment_eq h hf.1]
  rw [if_pos (hf.2 n rfl)]

theorem aggregatePrice_mono {nSigFigs mantissa : Option Nat} (h : Viewed nSigFigs mantissa) {v w : Nat} {isBid : Bool}
    (hv : InRange v isBid nSigFigs mantissa) (hw : InRange w isBid nSigFigs mantissa) (hle : v ≤ w) :
    aggregatePrice v isBid nSigFigs mantissa ≤ aggregatePrice w isBid nSigFigs mantissa := by
  cases nSigFigs with
  | none => exact hle
  | some n =>
    rw [aggregatePrice_eq (h n rfl) hv, aggregatePrice_eq (h n rfl) hw]
    exact bucketed_mono (h n rfl) hle isBid

/-! ## A side -/

/-- One folded level, its price on the grid and its order count a `u32`. -/
structure GridLevel (β : Type*) where
  px : Nat
  sz : β
  n : Nat
  deriving DecidableEq, Repr

variable {β : Type*} [AddCommMonoid β]

/-- How `bucket_side` opens a bucket and adds a level to the last one. -/
def bucketing (isBid : Bool) (view : L2View) : Runs.Grouping (GridLevel β) Nat (GridLevel β) where
  key l := aggregatePrice l.px isBid view.nSigFigs view.mantissa
  keyOf l := l.px
  first l := { l with px := aggregatePrice l.px isBid view.nSigFigs view.mantissa }
  more last l := { last with sz := last.sz + l.sz, n := (last.n + l.n) % 2 ^ 32 }
  keyOf_first _ := rfl
  keyOf_more _ _ := rfl

/-- `bucket_side`: merge the levels that collide, until one would open a bucket past `nLevels`. -/
def bucketSide (levels : List (GridLevel β)) (isBid : Bool) (view : L2View) : List (GridLevel β) :=
  ((bucketing isBid view).upTo view.nLevels [] levels).reverse

/-- The levels of one bucket. -/
def classLevels (isBid : Bool) (view : L2View) (px : Nat) (levels : List (GridLevel β)) : List (GridLevel β) :=
  levels.filter fun l => aggregatePrice l.px isBid view.nSigFigs view.mantissa = px

/-- A merged level has the full sums of its class, the count as a `u32`. -/
theorem classOf_sums (isBid : Bool) (view : L2View) (levels : List (GridLevel β)) (hn : ∀ l ∈ levels, l.n < 2 ^ 32)
    {px : Nat} {g : GridLevel β} (hg : (bucketing isBid view).classOf px levels = some g) :
    g.sz = ((classLevels isBid view px levels).map fun l => l.sz).sum ∧
      g.n = ((classLevels isBid view px levels).map fun l => l.n).sum % 2 ^ 32 := by
  induction levels using List.reverseRecOn generalizing g with
  | nil => cases hg
  | append_singleton levels l ih =>
    have hn' : ∀ x ∈ levels, x.n < 2 ^ 32 := fun x hx => hn x (List.mem_append_left _ hx)
    by_cases hk : (bucketing isBid view).key l = px
    · subst hk
      have hclass : classLevels isBid view ((bucketing isBid view).key l) (levels ++ [l]) =
          classLevels isBid view ((bucketing isBid view).key l) levels ++ [l] := by
        unfold classLevels
        rw [List.filter_append, List.filter_cons_of_pos (by simp [bucketing]), List.filter_nil]
      rw [Runs.Grouping.classOf_snoc_self] at hg
      rw [hclass, List.map_append, List.map_append, List.sum_append, List.sum_append]
      cases hprev : (bucketing isBid view).classOf ((bucketing isBid view).key l) levels with
      | none =>
        rw [hprev] at hg
        cases hg
        have hnone : classLevels isBid view ((bucketing isBid view).key l) levels = [] := by
          unfold classLevels
          rw [List.filter_eq_nil_iff]
          intro x hx he
          exact (Runs.Grouping.classOf_eq_none _).mp hprev x hx (of_decide_eq_true he)
        have hlt := hn l (by simp)
        rw [hnone]
        refine ⟨by simp [bucketing], ?_⟩
        simp only [bucketing, List.map_nil, List.sum_nil, List.map_cons, List.sum_cons]
        omega
      | some g' =>
        rw [hprev] at hg
        cases hg
        obtain ⟨hsz, hcount⟩ := ih hn' hprev
        refine ⟨by simp [bucketing, hsz], ?_⟩
        simp only [bucketing, List.map_nil, List.sum_nil, List.map_cons, List.sum_cons] at hcount ⊢
        rw [hcount]
        omega
    · have hclass : classLevels isBid view px (levels ++ [l]) = classLevels isBid view px levels := by
        unfold classLevels
        rw [List.filter_append, List.filter_cons_of_neg (by simpa [bucketing] using hk), List.filter_nil, List.append_nil]
      rw [Runs.Grouping.classOf_snoc_ne _ hk] at hg
      rw [hclass]
      exact ih hn' hg

/-- One price stands before another on its side. -/
def Better (isBid : Bool) (p q : Nat) : Prop := if isBid then q < p else p < q

instance (isBid : Bool) : IsStrictOrder Nat (Better isBid) where
  irrefl p := by cases isBid <;> simp [Better]
  trans p q r hpq hqr := by cases isBid <;> simp only [Better, Bool.false_eq_true, if_true, if_false] at * <;> omega

/-- A side in best-first order, no price twice. -/
def BestFirst (isBid : Bool) (levels : List (GridLevel β)) : Prop :=
  levels.Pairwise fun a b => Better isBid a.px b.px

/-- The partition of a side's levels by bucket: its classes in best-first order, each with the full sums of its levels,
the count as a `u32`. -/
structure Classes (isBid : Bool) (view : L2View) (levels full : List (GridLevel β)) : Prop where
  order : BestFirst isBid full
  each : ∀ g ∈ full, classLevels isBid view g.px levels ≠ [] ∧
    g.sz = ((classLevels isBid view g.px levels).map fun l => l.sz).sum ∧
    g.n = ((classLevels isBid view g.px levels).map fun l => l.n).sum % 2 ^ 32
  every : ∀ l ∈ levels, ∃ g ∈ full, g.px = aggregatePrice l.px isBid view.nSigFigs view.mantissa

/-- Along a best-first side the buckets only move one way. -/
theorem bucketing_moves {isBid : Bool} {view : L2View} (hview : Viewed view.nSigFigs view.mantissa)
    {levels : List (GridLevel β)} (hbest : BestFirst isBid levels)
    (hrange : ∀ l ∈ levels, InRange l.px isBid view.nSigFigs view.mantissa) :
    (bucketing isBid view : Runs.Grouping (GridLevel β) Nat (GridLevel β)).Moves (Better isBid) levels := by
  refine List.Pairwise.imp_of_mem (fun {a b} ha hb hab => ?_) hbest
  have hmono : ∀ x ∈ levels, ∀ y ∈ levels, x.px ≤ y.px →
      (bucketing isBid view).key x ≤ (bucketing isBid view).key y :=
    fun x hx y hy hle => aggregatePrice_mono hview (hrange x hx) (hrange y hy) hle
  cases isBid with
  | true =>
    rcases Nat.eq_or_lt_of_le (hmono b hb a ha (Nat.le_of_lt hab)) with he | hlt
    · exact .inl he.symm
    · exact .inr hlt
  | false => exact Nat.eq_or_lt_of_le (hmono a ha b hb (Nat.le_of_lt hab))

theorem bucketSide_eq_take {isBid : Bool} {view : L2View} (hview : Viewed view.nSigFigs view.mantissa)
    {levels : List (GridLevel β)} (hbest : BestFirst isBid levels)
    (hrange : ∀ l ∈ levels, InRange l.px isBid view.nSigFigs view.mantissa) (hn : ∀ l ∈ levels, l.n < 2 ^ 32) :
    ∃ full, Classes isBid view levels full ∧ bucketSide levels isBid view = full.take view.nLevels := by
  have hgrouped := (bucketing isBid view).grouped_fold levels (bucketing_moves hview hbest hrange)
  refine ⟨((bucketing isBid view).fold levels).reverse, ⟨?_, ?_, ?_⟩, ?_⟩
  · exact List.pairwise_reverse.mpr hgrouped.order
  · intro g hg
    have hclass := (hgrouped.mem g).mp (List.mem_reverse.mp hg)
    refine ⟨fun hempty => ?_, classOf_sums isBid view levels hn hclass⟩
    have hnone : (bucketing isBid view).classOf g.px levels = none := by
      rw [Runs.Grouping.classOf_eq_none]
      intro l hl hk
      have hmem : l ∈ classLevels isBid view g.px levels := List.mem_filter.mpr ⟨hl, decide_eq_true hk⟩
      rw [hempty] at hmem
      cases hmem
    exact Option.some_ne_none g (hclass.symm.trans hnone)
  · intro l hl
    cases hclass : (bucketing isBid view).classOf ((bucketing isBid view).key l) levels with
    | none => exact ((Runs.Grouping.classOf_eq_none _).mp hclass l hl rfl).elim
    | some g =>
      have hk := Runs.Grouping.classOf_keyOf _ hclass
      exact ⟨g, List.mem_reverse.mpr ((hgrouped.mem g).mpr (by rw [hk]; exact hclass)), hk⟩
  · exact (bucketing isBid view).upTo_eq_take view.nLevels levels [] (Nat.zero_le _)

/-- **Aggregation is an exact, monotone group-by.** For every rounding a view can ask for: a bid's bucket is at most its
price and an ask's at least, a multiple of the increment less than one increment away, and buckets are monotone in the
price, also where it gains a digit.  So a bucketed best-first side is the first classes of its levels by bucket, in
order, each with the full sums of its levels. -/
theorem aggregation_exact {view : L2View} (hview : Viewed view.nSigFigs view.mantissa) :
    (∀ n v, view.nSigFigs = some n → v < 2 ^ 64 →
      let bid := aggregatePrice v true (some n) view.mantissa
      bid ≤ v ∧ v < bid + step v n view.mantissa ∧ step v n view.mantissa ∣ bid) ∧
    (∀ n v, view.nSigFigs = some n → InRange v false (some n) view.mantissa →
      let ask := aggregatePrice v false (some n) view.mantissa
      v ≤ ask ∧ ask < v + step v n view.mantissa ∧ step v n view.mantissa ∣ ask) ∧
    (∀ isBid v w, InRange v isBid view.nSigFigs view.mantissa → InRange w isBid view.nSigFigs view.mantissa → v ≤ w →
      aggregatePrice v isBid view.nSigFigs view.mantissa ≤ aggregatePrice w isBid view.nSigFigs view.mantissa) ∧
    ∀ isBid (levels : List (GridLevel β)), BestFirst isBid levels →
      (∀ l ∈ levels, InRange l.px isBid view.nSigFigs view.mantissa) → (∀ l ∈ levels, l.n < 2 ^ 32) →
      ∃ full, Classes isBid view levels full ∧ bucketSide levels isBid view = full.take view.nLevels ∧
        ((levels.map fun l => l.n).sum < 2 ^ 32 →
          ∀ g ∈ full, g.n = ((classLevels isBid view g.px levels).map fun l => l.n).sum) := by
  refine ⟨?_, ?_, ?_, ?_⟩
  · intro n v hn hv bid
    have hr := hview n hn
    have hbid : bid = bucketed v (step v n view.mantissa) true := aggregatePrice_eq hr (inRange_bid hv _ _)
    obtain ⟨hdvd, hlt, -⟩ := bucketed_near v (step_pos hr v) true
    rw [hbid]
    exact ⟨bucketed_bid_le _ _, hlt, hdvd⟩
  · intro n v hn hf ask
    have hr := hview n hn
    have hask : ask = bucketed v (step v n view.mantissa) false := aggregatePrice_eq hr hf
    obtain ⟨hdvd, -, hlt⟩ := bucketed_near v (step_pos hr v) false
    rw [hask]
    exact ⟨le_bucketed_ask v (step_pos hr v), hlt, hdvd⟩
  · intro isBid v w hv hw hle
    exact aggregatePrice_mono hview hv hw hle
  · intro isBid levels hbest hrange hn
    obtain ⟨full, hclasses, htake⟩ := bucketSide_eq_take hview hbest hrange hn
    refine ⟨full, hclasses, htake, fun hsum g hg => ?_⟩
    have hle : ((classLevels isBid view g.px levels).map fun l => l.n).sum ≤ (levels.map fun l => l.n).sum :=
      (List.Sublist.map _ List.filter_sublist).sum_le_sum fun _ _ => Nat.zero_le _
    rw [(hclasses.each g hg).2.2, Nat.mod_eq_of_lt (by omega)]

/-- Two bids of one bucket, and one below it. -/
def mergedSide : List (GridLevel ℤ) := [⟨12345, 4, 1⟩, ⟨12111, 3, 2⟩, ⟨999, 5, 1⟩]

theorem aggregation_exact_merged :
    bucketSide mergedSide true ⟨some 2, none, 1⟩ = [⟨12000, 7, 3⟩] ∧
      ∃ full, Classes true ⟨some 2, none, 1⟩ mergedSide full ∧
        bucketSide mergedSide true ⟨some 2, none, 1⟩ = full.take 1 := by
  refine ⟨by decide, ?_⟩
  have hview : Viewed (some 2) none := by
    intro n hn
    cases hn
    exact ⟨by decide, by decide, .inl rfl⟩
  have hgrid : ∀ l ∈ mergedSide, l.px < 2 ^ 64 := by decide
  have hrange : ∀ l ∈ mergedSide, InRange l.px true (some 2) none := fun l hl => inRange_bid (hgrid l hl) _ _
  obtain ⟨full, hclasses, htake, -⟩ :=
    (@aggregation_exact ℤ _ ⟨some 2, none, 1⟩ hview).2.2.2 true mergedSide
      (by unfold BestFirst Better; decide) hrange (by decide)
  exact ⟨full, hclasses, htake⟩

end EdgeConnect.Hl
