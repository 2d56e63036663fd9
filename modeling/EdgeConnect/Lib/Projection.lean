import EdgeConnect.Lib.Machine

/-!
# Parts of a machine

A `Projection` of a machine onto another reads a part of the state with `view` and a part of the trace with `pick`: a
step shows none and leaves the part alone, or shows a step of the other machine and takes it.  This is asked only of
states that meet an invariant and of entries that are `ok`.

* `Machine.trace_cut` — a run cut at an entry, with what each side shows;
* `Projection.run` — a run whose entries are ok shows a run of the part, and leaves the state it leaves;
* `Projection.history_rule` — so what the part's history says of its state can be said of the whole's.
-/

set_option autoImplicit false

/-- A run cut at an entry of its trace, with what each side of the cut shows. -/
theorem Machine.trace_cut {σ ι ο : Type*} (m : Machine σ ι ο) {is : List ι} {s : σ} {t u : List (ι × ο)} {e : ι × ο}
    (h : m.trace s is = t ++ e :: u) : ∃ js ks, is = js ++ e.1 :: ks ∧ m.trace s js = t ∧
      e.2 = (m.step (m.exec s js) e.1).2 ∧ u = m.trace (m.step (m.exec s js) e.1).1 ks := by
  obtain ⟨js, i, ks, rfl, ht, rfl⟩ := m.trace_split h
  refine ⟨js, ks, rfl, ht, rfl, ?_⟩
  rw [m.trace_append, ht, m.trace_cons] at h
  exact (List.cons.inj (List.append_cancel_left h)).2.symm

/-- A part of the machine `m` that moves as the machine `m'` does. -/
structure Projection {σ ι ο σ' ι' ο' : Type*} (m : Machine σ ι ο) (m' : Machine σ' ι' ο')
    (ok : ι × ο → Prop) (I : σ → Prop) where
  view : σ → σ'
  pick : ι × ο → Option (ι' × ο')
  keeps : ∀ s i, I s → ok (i, (m.step s i).2) → I (m.step s i).1
  moves : ∀ s i, I s → ok (i, (m.step s i).2) →
    (pick (i, (m.step s i).2) = none ∧ view (m.step s i).1 = view s) ∨
      ∃ j, pick (i, (m.step s i).2) = some (j, (m'.step (view s) j).2) ∧
        view (m.step s i).1 = (m'.step (view s) j).1

namespace Projection

variable {σ ι ο σ' ι' ο' : Type*} {m : Machine σ ι ο} {m' : Machine σ' ι' ο'} {ok : ι × ο → Prop} {I : σ → Prop}
  (π : Projection m m' ok I)

/-- What a trace shows of the part. -/
def picked (t : List (ι × ο)) : List (ι' × ο') := t.filterMap π.pick

theorem mem_picked {t : List (ι × ο)} {e : ι' × ο'} : e ∈ π.picked t ↔ ∃ x ∈ t, π.pick x = some e := List.mem_filterMap

/-- **A run shows a run of the part.** -/
theorem run : ∀ (is : List ι) (s : σ), I s → (∀ e ∈ m.trace s is, ok e) →
    π.picked (m.trace s is) = m'.trace (π.view s) ((π.picked (m.trace s is)).map Prod.fst) ∧
      π.view (m.exec s is) = m'.exec (π.view s) ((π.picked (m.trace s is)).map Prod.fst) ∧
      I (m.exec s is)
  | [], _, hI, _ => ⟨rfl, rfl, hI⟩
  | i :: is, s, hI, hok => by
    have hi : ok (i, (m.step s i).2) := hok _ (by rw [Machine.trace_cons]; exact List.mem_cons_self)
    obtain ⟨htrace, hexec, hkeep⟩ := run is (m.step s i).1 (π.keeps s i hI hi) fun e he =>
      hok e (by rw [Machine.trace_cons]; exact List.mem_cons_of_mem _ he)
    rcases π.moves s i hI hi with ⟨hpick, hview⟩ | ⟨j, hpick, hview⟩
    · have hcons : π.picked (m.trace s (i :: is)) = π.picked (m.trace (m.step s i).1 is) :=
        List.filterMap_cons_none hpick
      rw [hcons, Machine.exec_cons, ← hview]
      exact ⟨htrace, hexec, hkeep⟩
    · have hcons : π.picked (m.trace s (i :: is)) = (j, (m'.step (π.view s) j).2) :: π.picked (m.trace (m.step s i).1 is) :=
        List.filterMap_cons_some hpick
      rw [hcons, List.map_cons, Machine.exec_cons, Machine.trace_cons, Machine.exec_cons, ← hview, ← htrace]
      exact ⟨rfl, hexec, hkeep⟩

/-- **History rule of a part.**  What every step of the part extends is true of what a run of the whole shows. -/
theorem history_rule {P : List (ι' × ο') → σ' → Prop}
    (hstep : ∀ t s i, P t s → P (t ++ [(i, (m'.step s i).2)]) (m'.step s i).1) {s : σ} (h₀ : P [] (π.view s)) (hI : I s)
    (is : List ι) (hok : ∀ e ∈ m.trace s is, ok e) : P (π.picked (m.trace s is)) (π.view (m.exec s is)) := by
  obtain ⟨htrace, hexec, -⟩ := π.run is s hI hok
  rw [htrace, hexec]
  exact Machine.history_rule h₀ hstep _

end Projection
