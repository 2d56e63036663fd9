import Mathlib.Data.List.Induction

/-!
# Deterministic machines with outputs

A `Machine σ ι ο` reads one input at a time, moves its state and answers with an output.

* `exec` is the state a run ends in and `trace` the list of its inputs paired with their outputs;
* `exec_append`, `trace_append` — a run is its parts, one after the other; `trace_split` cuts it at
  an entry of its trace;
* `invariant_rule` — what every step preserves holds after every run;
* `history_rule` — the same for a relation between the whole trace and the state, by induction on
  the run read from its end;
* `Along ok s is` — every step of the run meets `ok` in the state it is taken from, with its own
  invariant and history rules;
* `unwinding_rule` — a relation that hidden inputs cannot break and shown ones answer alike under:
  the shown part of a trace is the trace of the shown part.
-/

set_option autoImplicit false

/-- A deterministic machine: one step maps a state and an input to a state and an output. -/
structure Machine (σ ι ο : Type*) where
  step : σ → ι → σ × ο

namespace Machine

variable {σ ι ο : Type*} (m : Machine σ ι ο)

/-- The state after a run. -/
def exec (s : σ) : List ι → σ
  | [] => s
  | i :: is => exec (m.step s i).1 is

/-- The inputs of a run, each with its output. -/
def trace (s : σ) : List ι → List (ι × ο)
  | [] => []
  | i :: is => (i, (m.step s i).2) :: trace (m.step s i).1 is

/-- Every step of the run meets `ok` in the state before it. -/
def Along (ok : σ → ι → Prop) (s : σ) : List ι → Prop
  | [] => True
  | i :: is => ok s i ∧ Along ok (m.step s i).1 is

@[simp] theorem exec_nil (s : σ) : m.exec s [] = s := rfl

@[simp] theorem exec_cons (s : σ) (i : ι) (is : List ι) :
    m.exec s (i :: is) = m.exec (m.step s i).1 is := rfl

@[simp] theorem trace_nil (s : σ) : m.trace s [] = [] := rfl

@[simp] theorem trace_cons (s : σ) (i : ι) (is : List ι) :
    m.trace s (i :: is) = (i, (m.step s i).2) :: m.trace (m.step s i).1 is := rfl

theorem exec_append (is js : List ι) : ∀ s, m.exec s (is ++ js) = m.exec (m.exec s is) js := by
  induction is with
  | nil => intro s; rfl
  | cons i is ih => intro s; exact ih _

theorem trace_append (is js : List ι) :
    ∀ s, m.trace s (is ++ js) = m.trace s is ++ m.trace (m.exec s is) js := by
  induction is with
  | nil => intro s; rfl
  | cons i is ih => intro s; simp [ih]

theorem map_fst_trace : ∀ (is : List ι) (s : σ), (m.trace s is).map Prod.fst = is
  | [], _ => rfl
  | i :: is, s => by rw [trace_cons, List.map_cons, map_fst_trace is]

theorem mem_of_mem_trace {is : List ι} {s : σ} {e : ι × ο} (h : e ∈ m.trace s is) : e.1 ∈ is := by
  rw [← m.map_fst_trace is s]
  exact List.mem_map_of_mem h

/-- A run whose trace shows an entry was about to take that step when it was cut there. -/
theorem trace_split : ∀ {is : List ι} {s : σ} {t u : List (ι × ο)} {e : ι × ο},
    m.trace s is = t ++ e :: u →
    ∃ js i ks, is = js ++ i :: ks ∧ m.trace s js = t ∧ e = (i, (m.step (m.exec s js) i).2)
  | [], _, t, _, _, h => by simp at h
  | i :: is, s, [], _, _, h => by
    rw [trace_cons, List.nil_append, List.cons.injEq] at h
    exact ⟨[], i, is, rfl, rfl, h.1.symm⟩
  | i :: is, s, x :: t, _, _, h => by
    rw [trace_cons, List.cons_append, List.cons.injEq] at h
    obtain ⟨js, j, ks, rfl, ht, he⟩ := trace_split h.2
    exact ⟨i :: js, j, ks, rfl, by rw [trace_cons, h.1, ht], he⟩

theorem along_append (ok : σ → ι → Prop) (is js : List ι) :
    ∀ s, m.Along ok s (is ++ js) ↔ m.Along ok s is ∧ m.Along ok (m.exec s is) js := by
  induction is with
  | nil => intro s; simp [Along]
  | cons i is ih => intro s; simp [Along, ih, and_assoc]

variable {m}

/-- A condition on the inputs alone holds along a run as soon as it holds of each input. -/
theorem along_of_forall {p : ι → Prop} :
    ∀ (is : List ι) (s : σ), (∀ i ∈ is, p i) → m.Along (fun _ i => p i) s is
  | [], _, _ => trivial
  | i :: is, _, h => ⟨h i List.mem_cons_self,
      along_of_forall is _ fun j hj => h j (List.mem_cons_of_mem _ hj)⟩

theorem Along.mono {ok ok' : σ → ι → Prop} (himp : ∀ s i, ok s i → ok' s i) :
    ∀ {is : List ι} {s : σ}, m.Along ok s is → m.Along ok' s is
  | [], _, _ => trivial
  | _ :: _, _, h => ⟨himp _ _ h.1, Along.mono himp h.2⟩

theorem Along.and {ok ok' : σ → ι → Prop} :
    ∀ {is : List ι} {s : σ}, m.Along ok s is → m.Along ok' s is →
      m.Along (fun s i => ok s i ∧ ok' s i) s is
  | [], _, _, _ => trivial
  | _ :: _, _, h, h' => ⟨⟨h.1, h'.1⟩, Along.and h.2 h'.2⟩

/-- **Invariant rule.** What every step preserves holds after every run. -/
theorem invariant_rule {P : σ → Prop} (hstep : ∀ s i, P s → P (m.step s i).1) :
    ∀ (is : List ι) (s : σ), P s → P (m.exec s is)
  | [], _, h => h
  | i :: is, s, h => invariant_rule hstep is _ (hstep s i h)

/-- The invariant rule for runs whose steps all meet `ok`. -/
theorem along_rule {ok : σ → ι → Prop} {P : σ → Prop}
    (hstep : ∀ s i, ok s i → P s → P (m.step s i).1) :
    ∀ (is : List ι) (s : σ), m.Along ok s is → P s → P (m.exec s is)
  | [], _, _, h => h
  | i :: is, s, hok, h => along_rule hstep is _ hok.2 (hstep s i hok.1 h)

/-- **History rule.** A relation between trace and state that every step extends holds of every
run. -/
theorem history_rule {P : List (ι × ο) → σ → Prop} {s₀ : σ} (h₀ : P [] s₀)
    (hstep : ∀ t s i, P t s → P (t ++ [(i, (m.step s i).2)]) (m.step s i).1) (is : List ι) :
    P (m.trace s₀ is) (m.exec s₀ is) := by
  induction is using List.reverseRecOn with
  | nil => exact h₀
  | append_singleton is i ih =>
    rw [trace_append, exec_append]
    exact hstep _ _ i ih

/-- The history rule for runs whose steps all meet `ok`. -/
theorem along_history_rule {ok : σ → ι → Prop} {P : List (ι × ο) → σ → Prop} {s₀ : σ}
    (h₀ : P [] s₀)
    (hstep : ∀ t s i, ok s i → P t s → P (t ++ [(i, (m.step s i).2)]) (m.step s i).1)
    (is : List ι) (hok : m.Along ok s₀ is) : P (m.trace s₀ is) (m.exec s₀ is) := by
  induction is using List.reverseRecOn with
  | nil => exact h₀
  | append_singleton is i ih =>
    rw [along_append] at hok
    rw [trace_append, exec_append]
    exact hstep _ _ i hok.2.1 (ih hok.1)

/-- **Unwinding rule.** Hidden inputs keep `R` with a state that never sees them, shown inputs keep it on both sides
with the same output: then what the shown inputs are answered does not depend on the hidden ones. -/
theorem unwinding_rule {R : σ → σ → Prop} {shown : ι → Bool}
    (hhidden : ∀ s s' i, shown i = false → R s s' → R (m.step s i).1 s')
    (hshown : ∀ s s' i, shown i = true → R s s' →
      R (m.step s i).1 (m.step s' i).1 ∧ (m.step s i).2 = (m.step s' i).2) :
    ∀ (is : List ι) (s s' : σ), R s s' →
      (m.trace s is).filter (fun e => shown e.1) = m.trace s' (is.filter shown) ∧
        R (m.exec s is) (m.exec s' (is.filter shown))
  | [], _, _, h => ⟨rfl, h⟩
  | i :: is, s, s', h => by
    cases hi : shown i with
    | false =>
      have ih := unwinding_rule hhidden hshown is _ s' (hhidden s s' i hi h)
      simpa [hi] using ih
    | true =>
      have hs := hshown s s' i hi h
      have ih := unwinding_rule hhidden hshown is _ _ hs.1
      simpa [hi, hs.2] using ih

end Machine
