import Mathlib.Data.List.Basic
import Mathlib.Data.List.Infix

/-!
# Replaying part of a log of writes

A message writes some keys and leaves the others.  `play` applies every message of a log, `replay` only those
that were kept.

* `replay_eq_of_untouched`, `replay_congr` — replaying acts on each key alone;
* `Overtaken` — a key written by a kept message and then, for the last time, by one that was not kept;
* `Settled` — replaying any suffix of the log leaves a state as it is;
* `settled_of_not_overtaken` — a log settles the state it ends in, as long as no key is overtaken in it;
* `Settled.snoc`, `Settled.replace` — a kept write settles the state it leads to, and a message may be exchanged
  for one that makes no difference.
-/

set_option autoImplicit false

namespace LastWrite

variable {M K V : Type*} (eff : M → K → Option (Option V)) (kept : M → Bool)

/-- One message applied to a state. -/
def write (m : M) (u : K → Option V) : K → Option V := fun k => (eff m k).getD (u k)

/-- Every message of a log. -/
def play (u : K → Option V) (ms : List M) : K → Option V := ms.foldl (fun u m => write eff m u) u

/-- The kept messages of a log. -/
def replay (u : K → Option V) (ms : List M) : K → Option V :=
  ms.foldl (fun u m => if kept m then write eff m u else u) u

/-- A key that a kept message writes, then one that was not kept, and no kept one after that. -/
def Overtaken (ms : List M) (k : K) : Prop :=
  ∃ pre m mid m' post, ms = pre ++ m :: (mid ++ m' :: post) ∧ kept m = true ∧ eff m k ≠ none ∧
    kept m' = false ∧ eff m' k ≠ none ∧ ∀ x ∈ post, kept x = true → eff x k = none

/-- Replaying any suffix of the log leaves the state as it is. -/
def Settled (u : K → Option V) (ms : List M) : Prop := ∀ ms', ms' <:+ ms → replay eff kept u ms' = u

variable {eff kept} {u u' : K → Option V} {m : M} {ms ms' : List M} {k : K} {v : Option V}

theorem write_of_some (h : eff m k = some v) : write eff m u k = v := by
  unfold write
  rw [h]
  rfl

theorem write_of_none (h : eff m k = none) : write eff m u k = u k := by
  unfold write
  rw [h]
  rfl

theorem play_append : play eff u (ms ++ ms') = play eff (play eff u ms) ms' := List.foldl_append

theorem replay_append : replay eff kept u (ms ++ ms') = replay eff kept (replay eff kept u ms) ms' :=
  List.foldl_append

theorem replay_cons_of_kept (h : kept m = true) :
    replay eff kept u (m :: ms) = replay eff kept (write eff m u) ms := by
  show replay eff kept (if kept m then write eff m u else u) ms = _
  rw [if_pos h]

theorem replay_cons_of_not_kept (h : kept m = false) : replay eff kept u (m :: ms) = replay eff kept u ms := by
  show replay eff kept (if kept m then write eff m u else u) ms = _
  rw [h]
  rfl

/-- A key that no kept message writes is left alone. -/
theorem replay_eq_of_untouched : ∀ {ms : List M} {u : K → Option V},
    (∀ m ∈ ms, kept m = true → eff m k = none) → replay eff kept u ms k = u k
  | [], _, _ => rfl
  | m :: ms, u, h => by
    have hrest := fun x hx => h x (List.mem_cons_of_mem m hx)
    cases hm : kept m with
    | true =>
      rw [replay_cons_of_kept hm, replay_eq_of_untouched hrest]
      exact write_of_none (h m List.mem_cons_self hm)
    | false =>
      rw [replay_cons_of_not_kept hm]
      exact replay_eq_of_untouched hrest

theorem play_eq_of_untouched : ∀ {ms : List M} {u : K → Option V}, (∀ m ∈ ms, eff m k = none) →
    play eff u ms k = u k
  | [], _, _ => rfl
  | m :: ms, u, h => by
    show play eff (write eff m u) ms k = u k
    rw [play_eq_of_untouched fun x hx => h x (List.mem_cons_of_mem m hx)]
    exact write_of_none (h m List.mem_cons_self)

/-- Replaying acts on each key alone. -/
theorem replay_congr : ∀ {ms : List M} {u u' : K → Option V}, u k = u' k →
    replay eff kept u ms k = replay eff kept u' ms k
  | [], _, _, h => h
  | m :: ms, u, u', h => by
    cases hm : kept m with
    | true =>
      rw [replay_cons_of_kept hm, replay_cons_of_kept hm]
      refine replay_congr ?_
      unfold write
      rw [h]
    | false =>
      rw [replay_cons_of_not_kept hm, replay_cons_of_not_kept hm]
      exact replay_congr h

variable (eff) in
/-- A log writes a key for the last time somewhere, or never. -/
theorem exists_last_write (k : K) : ∀ ms : List M, (∀ m ∈ ms, eff m k = none) ∨
    ∃ pre m post, ms = pre ++ m :: post ∧ eff m k ≠ none ∧ ∀ x ∈ post, eff x k = none
  | [] => Or.inl nofun
  | m :: ms => by
    rcases exists_last_write k ms with h | ⟨pre, m', post, rfl, hm', hpost⟩
    · by_cases hm : eff m k = none
      · exact Or.inl (List.forall_mem_cons.mpr ⟨hm, h⟩)
      · exact Or.inr ⟨[], m, ms, rfl, hm, h⟩
    · exact Or.inr ⟨m :: pre, m', post, rfl, hm', hpost⟩

/-- A key whose last write was kept, or that no kept message writes, is replayed to what it is. -/
theorem replay_play (h : ¬ Overtaken eff kept ms k) :
    replay eff kept (play eff u ms) ms k = play eff u ms k := by
  rcases exists_last_write eff k ms with hnone | ⟨pre, m, post, rfl, hm, hpost⟩
  · exact replay_eq_of_untouched fun m hm _ => hnone m hm
  · obtain ⟨v, hv⟩ := Option.ne_none_iff_exists'.mp hm
    have hplay : play eff u (pre ++ m :: post) k = v := by
      rw [play_append]
      show play eff (write eff m _) post k = v
      rw [play_eq_of_untouched hpost]
      exact write_of_some hv
    cases hkept : kept m with
    | true =>
      rw [hplay, replay_append, replay_cons_of_kept hkept,
        replay_eq_of_untouched fun x hx _ => hpost x hx]
      exact write_of_some hv
    | false =>
      -- had a kept message written the key before, the last write would have overtaken it
      refine replay_eq_of_untouched fun x hx hxkept => ?_
      by_contra hxk
      rcases List.mem_append.mp hx with hx | hx
      · obtain ⟨before, mid, rfl⟩ := List.append_of_mem hx
        refine h ⟨before, x, mid, m, post, ?_, hxkept, hxk, hkept, hm, fun y hy _ => hpost y hy⟩
        rw [List.append_assoc, List.cons_append]
      · rcases List.mem_cons.mp hx with rfl | hx
        · rw [hkept] at hxkept
          cases hxkept
        · exact hxk (hpost x hx)

theorem Overtaken.of_suffix (hs : ms' <:+ ms) (h : Overtaken eff kept ms' k) : Overtaken eff kept ms k := by
  obtain ⟨front, rfl⟩ := hs
  obtain ⟨pre, m, mid, m', post, rfl, hrest⟩ := h
  exact ⟨front ++ pre, m, mid, m', post, by rw [List.append_assoc], hrest⟩

/-- **Where no key is overtaken, a log leaves the state it ends in.** -/
theorem settled_of_not_overtaken (h : ∀ k, ¬ Overtaken eff kept ms k) :
    Settled eff kept (play eff u ms) ms := by
  intro ms' hms'
  obtain ⟨front, rfl⟩ := hms'
  rw [play_append]
  funext k
  exact replay_play fun ho => h k (ho.of_suffix (List.suffix_append front ms'))

theorem Settled.suffix (h : Settled eff kept u ms) (hs : ms' <:+ ms) : Settled eff kept u ms' :=
  fun ms'' hms'' => h ms'' (hms''.trans hs)

theorem replay_snoc (hm : kept m = true) :
    replay eff kept u (ms ++ [m]) = write eff m (replay eff kept u ms) := by
  rw [replay_append, replay_cons_of_kept hm]
  rfl

/-- **A kept write settles the state it leads to.** -/
theorem Settled.snoc (h : Settled eff kept u ms) (hm : kept m = true) :
    Settled eff kept (write eff m u) (ms ++ [m]) := by
  intro ms' hms'
  rcases List.suffix_concat_iff.mp hms' with rfl | ⟨t, rfl, ht⟩
  · rfl
  · rw [replay_snoc hm]
    funext k
    cases hk : eff m k with
    | some v => rw [write_of_some hk, write_of_some hk]
    | none =>
      rw [write_of_none hk, write_of_none hk, replay_congr (write_of_none hk), h t ht]

/-- A message may be exchanged for another that makes no difference behind any suffix of what is before it. -/
theorem Settled.replace {before after : List M} {m' : M} (h : Settled eff kept u (before ++ m :: after))
    (hsame : ∀ ms, ms <:+ before →
      replay eff kept u (ms ++ m' :: after) = replay eff kept u (ms ++ m :: after)) :
    Settled eff kept u (before ++ m' :: after) := by
  intro ms' hms'
  obtain ⟨front, hfront⟩ := hms'
  rcases List.append_eq_append_iff.mp hfront with ⟨t, rfl, ht⟩ | ⟨t, rfl, ht⟩
  · subst ht
    rw [hsame t (List.suffix_append front t)]
    refine h _ ?_
    rw [List.append_assoc]
    exact List.suffix_append front _
  · cases t with
    | nil =>
      rw [List.nil_append] at ht
      subst ht
      rw [← List.nil_append (m' :: after), hsame [] (List.nil_suffix)]
      exact h _ (List.suffix_append before _)
    | cons x t =>
      rw [List.cons_append, List.cons.injEq] at ht
      refine h ms' ?_
      rw [ht.2]
      exact (List.suffix_append t ms').trans ((List.suffix_cons m _).trans (List.suffix_append before _))

/-- The last kept write of a key decides it, whatever was there. -/
theorem replay_eq_of_touched : ∀ {ms : List M} {u u' : K → Option V},
    (∃ m ∈ ms, kept m = true ∧ eff m k ≠ none) → replay eff kept u ms k = replay eff kept u' ms k
  | m :: ms, u, u', h => by
    by_cases hrest : ∃ m ∈ ms, kept m = true ∧ eff m k ≠ none
    · cases hm : kept m with
      | true =>
        rw [replay_cons_of_kept hm, replay_cons_of_kept hm]
        exact replay_eq_of_touched hrest
      | false =>
        rw [replay_cons_of_not_kept hm, replay_cons_of_not_kept hm]
        exact replay_eq_of_touched hrest
    · obtain ⟨x, hx, hkept, hk⟩ := h
      rcases List.mem_cons.mp hx with rfl | hx
      · obtain ⟨v, hv⟩ := Option.ne_none_iff_exists'.mp hk
        rw [replay_cons_of_kept hkept, replay_cons_of_kept hkept]
        refine replay_congr ?_
        rw [write_of_some hv, write_of_some hv]
      · exact absurd ⟨x, hx, hkept, hk⟩ hrest

/-- Messages that only remove leave an absent key absent. -/
theorem replay_eq_none : ∀ {ms : List M} {u : K → Option V}, u k = none →
    (∀ m ∈ ms, eff m k = none ∨ eff m k = some none) → replay eff kept u ms k = none
  | [], _, hu, _ => hu
  | m :: ms, u, hu, h => by
    have hrest := fun x hx => h x (List.mem_cons_of_mem m hx)
    cases hm : kept m with
    | false =>
      rw [replay_cons_of_not_kept hm]
      exact replay_eq_none hu hrest
    | true =>
      rw [replay_cons_of_kept hm]
      refine replay_eq_none ?_ hrest
      rcases h m List.mem_cons_self with hk | hk
      · rw [write_of_none hk, hu]
      · exact write_of_some hk

end LastWrite
