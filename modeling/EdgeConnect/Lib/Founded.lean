import EdgeConnect.Lib.Machine

/-!
# What rests on what came before it

`Founded G h l` says that each entry of `l` is in the relation `G` to everything before it, the entries of `h` first.

* `Founded.append`, `founded_snoc`, `founded_map`, `Founded.mono` — founded logs, put together, read and weakened;
  `Founded.at` — one entry;
* `Machine.log` — what a machine says in a run, each entry with the input it answers;
* `Machine.founded_rule` — where each step says what is founded, as long as the state is as the log before it has it, so
  does a run.
-/

set_option autoImplicit false

/-- Every entry of `l` is in the relation `G` to what came before it. -/
def Founded {α : Type*} (G : List α → α → Prop) : List α → List α → Prop
  | _, [] => True
  | h, a :: l => G h a ∧ Founded G (h ++ [a]) l

section Logs

variable {α : Type*} {G G' : List α → α → Prop}

theorem founded_append : ∀ {l l' h : List α}, Founded G h (l ++ l') ↔ Founded G h l ∧ Founded G (h ++ l) l'
  | [], l', h => by simp [Founded]
  | a :: l, l', h => by
    have ih : Founded G (h ++ [a]) (l ++ l') ↔ _ := founded_append
    rw [List.append_assoc, List.singleton_append] at ih
    show G h a ∧ Founded G (h ++ [a]) (l ++ l') ↔ (G h a ∧ Founded G (h ++ [a]) l) ∧ Founded G (h ++ a :: l) l'
    rw [ih, and_assoc]

theorem Founded.append {l l' h : List α} (hl : Founded G h l) (hl' : Founded G (h ++ l) l') : Founded G h (l ++ l') :=
  founded_append.mpr ⟨hl, hl'⟩

theorem founded_snoc {l h : List α} {a : α} : Founded G h (l ++ [a]) ↔ Founded G h l ∧ G (h ++ l) a := by
  rw [founded_append]
  exact and_congr_right fun _ => ⟨fun h => h.1, fun h => ⟨h, trivial⟩⟩

theorem Founded.mono : ∀ {l h : List α}, (∀ a ∈ l, ∀ h, G h a → G' h a) → Founded G h l → Founded G' h l
  | [], _, _, _ => trivial
  | a :: _, h, hG, hl => ⟨hG a List.mem_cons_self h hl.1, Founded.mono (fun b hb => hG b (List.mem_cons_of_mem _ hb)) hl.2⟩

/-- A log is founded in what its entries are read as where that is founded. -/
theorem founded_map {β : Type*} {f : β → α} : ∀ {l h : List β},
    Founded G (h.map f) (l.map f) ↔ Founded (fun h b => G (h.map f) (f b)) h l
  | [], _ => Iff.rfl
  | b :: l, h => by
    have ih := founded_map (f := f) (l := l) (h := h ++ [b])
    rw [List.map_append] at ih
    exact and_congr_right fun _ => ih

end Logs

namespace Machine

variable {σ ι α : Type*} (m : Machine σ ι (List α))

/-- What a machine says in a run, each entry with the input it answers. -/
def log (s : σ) : List ι → List (ι × α)
  | [] => []
  | i :: is => (m.step s i).2.map (fun a => (i, a)) ++ log (m.step s i).1 is

theorem log_cons (s : σ) (i : ι) (is : List ι) :
    m.log s (i :: is) = (m.step s i).2.map (fun a => (i, a)) ++ m.log (m.step s i).1 is := rfl

variable {m} {G : List (ι × α) → ι × α → Prop} {ok : σ → ι → Prop} {J : List (ι × α) → σ → Prop}

/-- **Where each step says what is founded, so does a run.** -/
theorem founded_rule
    (hstep : ∀ h s i, ok s i → J h s → Founded G h ((m.step s i).2.map fun a => (i, a)) ∧
      J (h ++ (m.step s i).2.map fun a => (i, a)) (m.step s i).1) :
    ∀ (is : List ι) (h : List (ι × α)) (s : σ), m.Along ok s is → J h s →
      Founded G h (m.log s is) ∧ J (h ++ m.log s is) (m.exec s is)
  | [], h, s, _, hJ => by
    refine ⟨trivial, ?_⟩
    show J (h ++ []) s
    rwa [List.append_nil]
  | i :: is, h, s, hok, hJ => by
    obtain ⟨hsaid, hnext⟩ := hstep h s i hok.1 hJ
    obtain ⟨hrest, hlast⟩ := founded_rule hstep is _ _ hok.2 hnext
    rw [log_cons, ← List.append_assoc]
    exact ⟨hsaid.append hrest, hlast⟩

end Machine
