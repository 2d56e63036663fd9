import EdgeConnect.Ingest.MbpBookkeeping
import EdgeConnect.Lib.Upheld

/-!
# The health reports of the Market-by-Price processor (`report_health` in `src/ingest/processor.rs`)

What the health reports of a run say of the books, by what the run hands on and what it drops.

* `Mark`, `history` — what a run hands on, the publishers it evicts and the books it touches, in order;
* `StandsHealthy` — a healthy report that nothing has overruled;
* `Filed` — the memo of the reports against the history; `reportHealth_filed`, `revealIfNeeded_filed`,
  `forgetBook_filed` — the three calls that write what it reads; `Silent` — what leaves all of it alone;
* `onMessage_inStep`, `onDatagram_inStep`, `Filed.step` — each message, datagram and call keeps the memo in step;
* `healthy_report_stands`.
-/

set_option autoImplicit false

namespace EdgeConnect.Mbp

open Ingest
open Upheld (latest Stands)

/-! ## The history of a run -/

/-- One entry of a history. -/
inductive Mark (P S : Type) where
  | out (o : Out P S)
  | evicted (publisher : IpAddr)
  | touched (key : PriceBookKey) (serves : Bool)
  deriving DecidableEq, Repr

section History

variable {P S : Type}

namespace Mark

/-- The market that a book is revealed under. -/
def announces (key : PriceBookKey) : Mark P S → Option BookKey
  | .out (.noteSourcePath k _ market) => if k = key then some market else none
  | _ => none

/-- Whether a book served when it was touched. -/
def serves (key : PriceBookKey) : Mark P S → Option Bool
  | .touched k s => if k = key then some s else none
  | _ => none

/-- A report of the market from the same publisher, the book's release of the market, and the publisher's eviction. -/
def Overrules (key : PriceBookKey) (market : BookKey) : Mark P S → Prop
  | .out (.setBookHealth k m _) => k.publisher = key.publisher ∧ m = market
  | .out (.releaseSourceMarket k m) => k = key ∧ m = market
  | .evicted publisher => publisher = key.publisher
  | _ => False

end Mark

/-- The market that a book was last revealed under. -/
def announced (hist : List (Mark P S)) (key : PriceBookKey) : Option BookKey := latest (Mark.announces key) hist

/-- Whether a book served at the last datagram that touched it. -/
def lastServed (hist : List (Mark P S)) (key : PriceBookKey) : Option Bool := latest (Mark.serves key) hist

/-- A book is reported healthy for the market it is revealed under. -/
def Files (key : PriceBookKey) (market : BookKey) (hist : List (Mark P S)) (m : Mark P S) : Prop :=
  m = .out (.setBookHealth key market true) ∧ announced hist key = some market

/-- The last report of the market from a publisher is that its book is healthy there; the book was revealed under the
market then and has not released it since, and the publisher was not evicted. -/
def StandsHealthy (hist : List (Mark P S)) (key : PriceBookKey) (market : BookKey) : Prop :=
  Stands (Files key market) (Mark.Overrules key market) hist

variable {hist : List (Mark P S)} {key : PriceBookKey} {market : BookKey} {m : Mark P S}

theorem announced_snoc : announced (hist ++ [m]) key = (m.announces key).or (announced hist key) := Upheld.latest_snoc

/-- An entry that files no health leaves no more standing. -/
theorem StandsHealthy.of_snoc (hm : ∀ k mk h, m ≠ .out (.setBookHealth k mk h))
    (h : StandsHealthy (hist ++ [m]) key market) : StandsHealthy hist key market ∧ ¬ m.Overrules key market := by
  rcases Upheld.stands_snoc h with ⟨hfiles, -⟩ | h
  · exact absurd hfiles (hm key market true)
  · exact h

end History

/-! ## The memo against the history -/

/-- `market` is the market of a book under a Source ID.  A book is revealed under the market that was announced last; a
report that stands is in the memo, for the market the book is revealed under; and what the memo has as healthy is
revealed, and holds of `healthy`. -/
structure Filed {P S : Type} (market : PriceBookKey → Nat → BookKey) (hist : List (Mark P S))
    (healthy : PriceBookKey → Prop) (p : MbpProcessor) : Prop where
  named : ∀ key id m, announced hist key = some m → p.revealed.get key = some id → market key id = m
  standing : ∀ key m, StandsHealthy hist key m → ∃ id, p.healthReported.get key = some (id, true)
  placed : ∀ key m, StandsHealthy hist key m → ∃ id, p.revealed.get key = some id ∧ market key id = m
  revealed : ∀ key id, p.healthReported.get key = some (id, true) → (p.revealed.get key).isSome = true
  healthy : ∀ key id, p.healthReported.get key = some (id, true) → healthy key

section Filing

variable {P S : Type} {rd : Render P S} {cx : Ctx P S} {market : PriceBookKey → Nat → BookKey}
  {past : List (Mark P S)} {healthy : PriceBookKey → Prop} {r r' : Run P S} {p p' : MbpProcessor}
  {key : PriceBookKey} {hist : List (Mark P S)}

/-- The history of a call in progress, after that of the calls before it. -/
def Run.marks (past : List (Mark P S)) (r : Run P S) : List (Mark P S) := past ++ r.out.map .out

theorem emit_marks (r : Run P S) (o : Out P S) : (r.emit o).marks past = r.marks past ++ [.out o] := by
  unfold Run.emit Run.marks
  rw [List.map_append, ← List.append_assoc]
  rfl

/-- What neither files health nor reveals. -/
def Out.silent : Out P S → Bool
  | .setBookHealth _ _ _ | .noteSourcePath _ _ _ => false
  | _ => true

def Mark.silent : Mark P S → Bool
  | .out o => o.silent
  | _ => true

theorem Mark.silent_out {os : List (Out P S)} (hos : ∀ o ∈ os, o.silent = true) :
    ∀ m ∈ os.map (Mark.out (P := P) (S := S)), m.silent = true := by
  intro m hm
  obtain ⟨o, ho, rfl⟩ := List.mem_map.mp hm
  exact hos o ho

theorem announced_append {ms : List (Mark P S)} (hms : ∀ m ∈ ms, m.silent = true) :
    announced (hist ++ ms) key = announced hist key := by
  have hnone : latest (Mark.announces key) ms = none := by
    unfold latest
    rw [List.getLast?_eq_none_iff, List.filterMap_eq_nil_iff]
    intro m hm
    have hsilent := hms m hm
    unfold Mark.announces
    split
    · cases hsilent
    · rfl
  unfold announced
  rw [Upheld.latest_append, hnone]
  rfl

/-- What files and reveals nothing leaves no more standing. -/
theorem StandsHealthy.of_append {ms : List (Mark P S)} (hms : ∀ m ∈ ms, m.silent = true) {m : BookKey}
    (h : StandsHealthy (hist ++ ms) key m) : StandsHealthy hist key m := by
  induction ms using List.reverseRecOn with
  | nil =>
    rw [List.append_nil] at h
    exact h
  | append_singleton ms x ih =>
    rw [← List.append_assoc] at h
    refine ih (fun x' hx' => hms x' (List.mem_append_left _ hx')) (StandsHealthy.of_snoc (fun k mk s heq => ?_) h).1
    have hx := hms x (List.mem_append_right _ (List.mem_singleton_self x))
    rw [heq] at hx
    cases hx

theorem Filed.of_eq (h : Filed market hist healthy p) (hmemo : p'.healthReported = p.healthReported)
    (hrevealed : p'.revealed = p.revealed) : Filed market hist healthy p' where
  named := hrevealed ▸ h.named
  standing := hmemo ▸ h.standing
  placed := hrevealed ▸ h.placed
  revealed := by
    rw [hmemo, hrevealed]
    exact h.revealed
  healthy := hmemo ▸ h.healthy

theorem Filed.mono {healthy' : PriceBookKey → Prop} (h : Filed market hist healthy p)
    (himp : ∀ key, healthy key → healthy' key) : Filed market hist healthy' p :=
  { h with healthy := fun key id hm => himp key (h.healthy key id hm) }

theorem Filed.append (h : Filed market hist healthy p) {ms : List (Mark P S)} (hms : ∀ m ∈ ms, m.silent = true) :
    Filed market (hist ++ ms) healthy p :=
  { h with
    named := fun key id m hm => h.named key id m ((announced_append hms).symm.trans hm)
    standing := fun key m hm => h.standing key m (hm.of_append hms)
    placed := fun key m hm => h.placed key m (hm.of_append hms) }

/-- What changes neither the memo nor the Source IDs, and files and reveals nothing. -/
structure Silent (r r' : Run P S) : Prop where
  memo : r'.proc.healthReported = r.proc.healthReported
  revealed : r'.proc.revealed = r.proc.revealed
  out : ∃ os, r'.out = r.out ++ os ∧ ∀ o ∈ os, o.silent = true

theorem Silent.refl (r : Run P S) : Silent r r := ⟨rfl, rfl, [], (List.append_nil _).symm, nofun⟩

theorem Silent.trans {r'' : Run P S} (h : Silent r r') (h' : Silent r' r'') : Silent r r'' := by
  obtain ⟨os, hout, hos⟩ := h.out
  obtain ⟨os', hout', hos'⟩ := h'.out
  refine ⟨h'.memo.trans h.memo, h'.revealed.trans h.revealed, os ++ os', ?_, fun o ho => ?_⟩
  · rw [hout', hout, List.append_assoc]
  · rcases List.mem_append.mp ho with ho | ho
    · exact hos o ho
    · exact hos' o ho

theorem Silent.emit (r : Run P S) {o : Out P S} (ho : o.silent = true) : Silent r (r.emit o) :=
  ⟨rfl, rfl, [o], rfl, fun o' h => by rw [List.mem_singleton.mp h]; exact ho⟩

/-- A change of the processor's other fields. -/
theorem Silent.proc (r : Run P S) {p : MbpProcessor} (hmemo : p.healthReported = r.proc.healthReported)
    (hrevealed : p.revealed = r.proc.revealed) : Silent r { r with proc := p } :=
  ⟨hmemo, hrevealed, [], (List.append_nil _).symm, nofun⟩

/-- A loop whose steps are all silent; `run` is the run in the state of the loop. -/
theorem Silent.foldl {σ κ : Type} (run : σ → Run P S) {step : σ → κ → σ} (h : ∀ s k, Silent (run s) (run (step s k))) :
    ∀ (ks : List κ) (s : σ), Silent (run s) (run (ks.foldl step s))
  | [], s => .refl (run s)
  | k :: ks, s => (h s k).trans (Silent.foldl run h ks (step s k))

theorem Filed.quiet (h : Filed market (r.marks past) healthy r.proc) (hs : Silent r r') :
    Filed market (r'.marks past) healthy r'.proc := by
  obtain ⟨os, hout, hos⟩ := hs.out
  have hmarks : r'.marks past = r.marks past ++ os.map .out := by
    unfold Run.marks
    rw [hout, List.map_append, List.append_assoc]
  rw [hmarks]
  exact (h.append (Mark.silent_out hos)).of_eq hs.memo hs.revealed

/-- Nothing of a book stands: the memo does not have it as healthy. -/
theorem Filed.notStanding (h : Filed market hist healthy p) (hgone : ∀ id, p.healthReported.get key ≠ some (id, true))
    (m : BookKey) : ¬ StandsHealthy hist key m := fun hs => by
  obtain ⟨id, hid⟩ := h.standing key m hs
  exact hgone id hid

/-- A report under the Source ID a book is revealed under overrules what stands of the book. -/
theorem Filed.file (h : Filed market hist healthy p) {id : Nat} (hid : p.revealed.get key = some id) (s : Bool)
    {hist' : List (Mark P S)} (hannounced : ∀ k, announced hist' k = announced hist k)
    (hself : ∀ m, StandsHealthy hist' key m → market key id = m)
    (hother : ∀ k m, k ≠ key → StandsHealthy hist' k m → StandsHealthy hist k m) :
    Filed market (hist' ++ [.out (.setBookHealth key (market key id) s)]) (fun k => if k = key then s = true else healthy k)
      { p with healthReported := p.healthReported.insert key (id, s) } := by
  have hmemo : ∀ k id', (p.healthReported.insert key (id, s)).get k = some (id', true) →
      (k = key ∧ s = true) ∨ (k ≠ key ∧ p.healthReported.get k = some (id', true)) := by
    intro k id' hk
    rw [FinMap.get_insert] at hk
    split at hk
    · rename_i heq
      exact .inl ⟨heq, (Prod.mk.inj (Option.some.inj hk)).2⟩
    · rename_i hne
      exact .inr ⟨hne, hk⟩
  have hstands : ∀ k m, StandsHealthy (hist' ++ [.out (.setBookHealth key (market key id) s)]) k m →
      (k = key ∧ s = true ∧ market key id = m) ∨ (k ≠ key ∧ StandsHealthy hist k m) := by
    intro k m hm
    rcases Upheld.stands_snoc hm with ⟨hmade, -⟩ | ⟨hstands, hkept⟩
    · cases hmade
      exact .inl ⟨rfl, rfl, rfl⟩
    · by_cases hk : k = key
      · subst hk
        exact absurd ⟨rfl, hself m hstands⟩ hkept
      · exact .inr ⟨hk, hother k m hk hstands⟩
  refine ⟨fun k id' m hm hk => ?_, fun k m hm => ?_, fun k m hm => ?_, fun k id' hk => ?_, fun k id' hk => ?_⟩
  · rw [announced_snoc] at hm
    exact h.named k id' m ((hannounced k).symm.trans hm) hk
  · show ∃ id', (p.healthReported.insert key (id, s)).get k = some (id', true)
    rcases hstands k m hm with ⟨rfl, rfl, -⟩ | ⟨hk, hs⟩
    · exact ⟨id, FinMap.get_insert_self _ _ _⟩
    · rw [FinMap.get_insert_of_ne _ _ hk]
      exact h.standing k m hs
  · rcases hstands k m hm with ⟨rfl, -, hmarket⟩ | ⟨-, hs⟩
    · exact ⟨id, hid, hmarket⟩
    · exact h.placed k m hs
  · rcases hmemo k id' hk with ⟨rfl, -⟩ | ⟨-, hk⟩
    · exact Option.isSome_of_eq_some hid
    · exact h.revealed k id' hk
  · rcases hmemo k id' hk with ⟨rfl, hs⟩ | ⟨hne, hk⟩
    · simpa using hs
    · simp only [hne, if_false]
      exact h.healthy k id' hk

/-- What stands of a book is of the market it is revealed under. -/
theorem Filed.market_of_stands (h : Filed market hist healthy p) {id : Nat} (hid : p.revealed.get key = some id)
    (m : BookKey) (hs : StandsHealthy hist key m) : market key id = m := by
  obtain ⟨id', hid', hmarket⟩ := h.placed key m hs
  rw [hid] at hid'
  cases hid'
  exact hmarket

/-- **A report of a book's health says what the memo then says.** -/
theorem reportHealth_filed (h : Filed (Run.marketOf rd cx) (r.marks past) healthy r.proc) (key : PriceBookKey) (s : Bool) :
    Filed (Run.marketOf rd cx) ((r.reportHealth rd cx key s).marks past) (fun k => if k = key then s = true else healthy k)
      (r.reportHealth rd cx key s).proc := by
  unfold Run.reportHealth
  split
  · rename_i hnone
    refine { h with healthy := fun k id hk => ?_ }
    by_cases hkey : k = key
    · subst hkey
      have hsome := h.revealed k id hk
      rw [hnone] at hsome
      cases hsome
    · simp only [hkey, if_false]
      exact h.healthy k id hk
  · rename_i id hid
    split
    · rename_i hfiled
      refine { h with healthy := fun k id' hk => ?_ }
      by_cases hkey : k = key
      · subst hkey
        rw [hfiled] at hk
        simpa using (Prod.mk.inj (Option.some.inj hk)).2
      · simp only [hkey, if_false]
        exact h.healthy k id' hk
    · simp only
      have hplain := h.file hid s (fun _ => rfl) (h.market_of_stands hid) fun _ _ _ hs => hs
      have hwithdrawn : ∀ old : Nat, Filed (Run.marketOf rd cx) ((r.marks past ++
          [.out (.setBookHealth key (Run.marketOf rd cx key old) true)]) ++
          [.out (.setBookHealth key (Run.marketOf rd cx key id) s)]) (fun k => if k = key then s = true else healthy k)
          { r.proc with healthReported := r.proc.healthReported.insert key (id, s) } := fun old =>
        h.file hid s (fun k => announced_snoc) (fun m hs => by
          rcases Upheld.stands_snoc hs with ⟨-, hannounced⟩ | ⟨hstands, -⟩
          · exact h.named key id m hannounced hid
          · exact h.market_of_stands hid m hstands) fun k m hk hs => by
          rcases Upheld.stands_snoc hs with ⟨hmade, -⟩ | ⟨hstands, -⟩
          · cases hmade
            exact absurd rfl hk
          · exact hstands
      rw [emit_marks]
      split
      · rename_i old _
        split
        · rw [emit_marks]
          exact hwithdrawn old
        · exact hplain
      · exact hplain

theorem not_healthy_of_false (h : Filed market hist (fun k => if k = key then false = true else healthy k) p) (id : Nat) :
    p.healthReported.get key ≠ some (id, true) := fun hk => by
  have hfalse := h.healthy key id hk
  simp at hfalse

theorem unhealthy_filed (h : Filed (Run.marketOf rd cx) (r.marks past) healthy r.proc) (key : PriceBookKey) :
    Filed (Run.marketOf rd cx) ((r.reportHealth rd cx key false).marks past) healthy (r.reportHealth rd cx key false).proc ∧
      ∀ id, (r.reportHealth rd cx key false).proc.healthReported.get key ≠ some (id, true) := by
  have hfiled := reportHealth_filed h key false
  refine ⟨hfiled.mono fun k hk => ?_, not_healthy_of_false hfiled⟩
  split at hk
  · cases hk
  · exact hk

/-- A book of which nothing stands is revealed. -/
theorem Filed.reveal (h : Filed market hist healthy p) (key : PriceBookKey) (id : Nat)
    (hfree : ∀ m, ¬ StandsHealthy hist key m) :
    Filed market (hist ++ [.out (.noteSourcePath key id (market key id))]) healthy
      { p with revealed := p.revealed.insert key id } := by
  have hstands : ∀ k m, StandsHealthy (hist ++ [.out (.noteSourcePath key id (market key id))]) k m →
      StandsHealthy hist k m := fun k m hm => (StandsHealthy.of_snoc (fun _ _ _ heq => by cases heq) hm).1
  refine ⟨fun k id' m hm hk => ?_, fun k m hm => h.standing k m (hstands k m hm), fun k m hm => ?_, fun k id' hk => ?_,
    h.healthy⟩
  · change (p.revealed.insert key id).get k = some id' at hk
    rw [announced_snoc] at hm
    rw [FinMap.get_insert] at hk
    split at hk
    · rename_i heq
      subst heq
      cases hk
      simpa [Mark.announces] using hm
    · rename_i hne
      have hsilent : (Mark.out (.noteSourcePath key id (market key id)) : Mark P S).announces k = none :=
        if_neg (Ne.symm hne)
      rw [hsilent] at hm
      exact h.named k id' m hm hk
  · have hne : k ≠ key := fun heq => hfree m (heq ▸ hstands k m hm)
    show ∃ id', (p.revealed.insert key id).get k = some id' ∧ market k id' = m
    rw [FinMap.get_insert_of_ne _ _ hne]
    exact h.placed k m (hstands k m hm)
  · show ((p.revealed.insert key id).get k).isSome = true
    rw [FinMap.get_insert]
    split
    · rfl
    · exact h.revealed k id' hk

/-- A book of which no Source ID is known has nothing standing. -/
theorem Filed.free_of_unrevealed (h : Filed market hist healthy p) (hnone : p.revealed.get key = none) (m : BookKey) :
    ¬ StandsHealthy hist key m := fun hs => by
  obtain ⟨id, hid, -⟩ := h.placed key m hs
  rw [hnone] at hid
  cases hid

/-- The release of the market a book is revealed under leaves nothing of the book standing. -/
theorem Filed.free_of_release (h : Filed market hist healthy p) {id : Nat} (hid : p.revealed.get key = some id)
    (m : BookKey) : ¬ StandsHealthy (hist ++ [.out (.releaseSourceMarket key (market key id))]) key m := fun hs => by
  obtain ⟨hs, hkept⟩ := StandsHealthy.of_snoc (fun _ _ _ heq => by cases heq) hs
  exact hkept ⟨rfl, h.market_of_stands hid m hs⟩

/-- **A reveal keeps the memo in step.** -/
theorem revealIfNeeded_filed (h : Filed (Run.marketOf rd cx) (r.marks past) healthy r.proc) (key : PriceBookKey)
    (sourceId : Nat) : Filed (Run.marketOf rd cx) ((r.revealIfNeeded rd cx key sourceId).1.marks past) healthy
      (r.revealIfNeeded rd cx key sourceId).1.proc := by
  unfold Run.revealIfNeeded
  simp only
  split
  · exact h
  · split
    · exact h
    · have hname : ∀ r : Run P S, Filed (Run.marketOf rd cx) (r.marks past) healthy r.proc →
          (∀ m, ¬ StandsHealthy (r.marks past) key m) → Filed (Run.marketOf rd cx) ((({ r with proc := { r.proc with
            revealed := r.proc.revealed.insert key sourceId } } : Run P S).emit
            (.noteSourcePath key sourceId (Run.marketOf rd cx key sourceId))).marks past) healthy
            { r.proc with revealed := r.proc.revealed.insert key sourceId } := by
        intro r hr hfree
        rw [emit_marks]
        exact hr.reveal key sourceId hfree
      refine Filed.quiet ?_ (.emit _ rfl)
      split
      · rename_i hnone
        exact hname r h (h.free_of_unrevealed hnone)
      · rename_i old hold
        refine hname _ (h.quiet (.emit r rfl)) ?_
        rw [emit_marks]
        exact h.free_of_release hold

theorem forgetSourcePath_silent (r : Run P S) (key : PriceBookKey) : Silent r (r.forgetSourcePath rd cx key) := by
  unfold Run.forgetSourcePath
  split
  · exact .refl r
  · exact .emit r rfl

theorem Filed.eraseMemo (h : Filed market hist healthy p) (hgone : ∀ m, ¬ StandsHealthy hist key m) :
    Filed market hist healthy { p with healthReported := p.healthReported.erase key } := by
  have hmemo : ∀ k id, (p.healthReported.erase key).get k = some (id, true) →
      p.healthReported.get k = some (id, true) := by
    intro k id hk
    rw [FinMap.get_erase] at hk
    split at hk
    · cases hk
    · exact hk
  refine ⟨h.named, fun k m hm => ?_, h.placed, fun k id hk => h.revealed k id (hmemo k id hk),
    fun k id hk => h.healthy k id (hmemo k id hk)⟩
  have hne : k ≠ key := fun heq => hgone m (heq ▸ hm)
  show ∃ id, (p.healthReported.erase key).get k = some (id, true)
  rw [FinMap.get_erase_of_ne _ hne]
  exact h.standing k m hm

/-- The Source ID of a book goes once the memo does not have it as healthy. -/
theorem Filed.eraseRevealed (h : Filed market hist healthy p)
    (hgone : ∀ id, p.healthReported.get key ≠ some (id, true)) :
    Filed market hist healthy { p with revealed := p.revealed.erase key } := by
  refine ⟨fun k id m hm hk => ?_, h.standing, fun k m hm => ?_, fun k id hk => ?_, h.healthy⟩
  · change (p.revealed.erase key).get k = some id at hk
    rw [FinMap.get_erase] at hk
    split at hk
    · cases hk
    · exact h.named k id m hm hk
  · have hne : k ≠ key := fun heq => h.notStanding hgone m (heq ▸ hm)
    show ∃ id, (p.revealed.erase key).get k = some id ∧ market k id = m
    rw [FinMap.get_erase_of_ne _ hne]
    exact h.placed k m hm
  · have hne : k ≠ key := by
      rintro rfl
      exact hgone id hk
    show ((p.revealed.erase key).get k).isSome = true
    rw [FinMap.get_erase_of_ne _ hne]
    exact h.revealed k id hk

/-- **A book of which no report stands may go.** -/
theorem forgetBook_filed (h : Filed market (r.marks past) healthy r.proc)
    (hgone : ∀ m, ¬ StandsHealthy (r.marks past) key m) :
    Filed market ((r.forgetBook rd cx key).marks past) healthy (r.forgetBook rd cx key).proc := by
  unfold Run.forgetBook
  simp only
  generalize hr₁ : ({ r with proc := { r.proc with
      books := r.proc.books.erase key
      bufferedTotal := r.proc.bufferedTotal - (r.proc.books.get key).elim 0 PriceBook.bufferedLen
      healthReported := r.proc.healthReported.erase key } } : Run P S) = r₁
  have hmemo : Filed market (r₁.marks past) healthy r₁.proc := by
    rw [← hr₁]
    exact (h.eraseMemo hgone).of_eq rfl rfl
  have hnone : r₁.proc.healthReported.get key = none := by
    rw [← hr₁]
    exact FinMap.get_erase_self _ _
  have hsilent : Silent r₁ (r₁.forgetSourcePath rd cx key) := forgetSourcePath_silent r₁ key
  have hpath := hmemo.quiet hsilent
  rw [← hsilent.memo] at hnone
  generalize r₁.forgetSourcePath rd cx key = r₂ at hpath hnone ⊢
  exact (hpath.eraseRevealed fun id hid => by rw [hnone] at hid; cases hid).of_eq rfl rfl

/-- A book is reported unhealthy, then goes. -/
theorem reportForget_filed (h : Filed (Run.marketOf rd cx) (r.marks past) healthy r.proc) (key : PriceBookKey) :
    Filed (Run.marketOf rd cx) (((r.reportHealth rd cx key false).forgetBook rd cx key).marks past) healthy
      ((r.reportHealth rd cx key false).forgetBook rd cx key).proc := by
  obtain ⟨hfiled, hgone⟩ := unhealthy_filed h key
  exact forgetBook_filed hfiled (hfiled.notStanding hgone)

theorem foldl_filed {κ : Type} (step : Run P S → κ → Run P S)
    (hstep : ∀ r k, Filed market (r.marks past) healthy r.proc → Filed market ((step r k).marks past) healthy (step r k).proc) :
    ∀ (ks : List κ) (r : Run P S), Filed market (r.marks past) healthy r.proc →
      Filed market ((ks.foldl step r).marks past) healthy (ks.foldl step r).proc
  | [], _, h => h
  | k :: ks, r, h => foldl_filed step hstep ks _ (hstep r k h)

end Filing

/-! ## What leaves the memo alone -/

section Silence

variable {P S : Type} {rd : Render P S} {cx : Ctx P S} {channel : Nat} {r : Run P S} {f : Frame P S}

theorem withBook_silent {R : Type} (r : Run P S) (key : PriceBookKey) (g : PriceBook → PriceBook × R) :
    Silent r (r.withBook key g).1 := by
  unfold Run.withBook
  split
  · exact .refl r
  · exact .proc r rfl rfl

theorem sendBook_silent (r : Run P S) (id : Nat) (changes : List (Change P S)) (snapshot last : Bool) :
    Silent r (r.sendBook rd cx channel id changes snapshot last).1 := by
  unfold Run.sendBook
  simp only
  split
  · split
    · exact .emit r rfl
    · exact .refl r
  · exact .refl r

theorem emitRebaseline_silent (r : Run P S) (id : Nat) : Silent r (r.emitRebaseline rd cx channel id).1 := by
  unfold Run.emitRebaseline
  split
  · exact sendBook_silent r id _ true true
  · exact .refl r

theorem modifyBatching_silent (r : Run P S) (chan : ChannelKey) (g : ChannelBatching → ChannelBatching) :
    Silent r (r.modifyBatching chan g) := by
  unfold Run.modifyBatching
  split
  · exact .refl r
  · exact .proc r rfl rfl

theorem dropBatching_silent (r : Run P S) (chan : ChannelKey) : Silent r (r.dropBatching chan) :=
  ⟨rfl, rfl, [.batchingDropped chan], rfl, fun o ho => by rw [List.mem_singleton.mp ho]; rfl⟩

/-- A batch that went closes the event of its instrument. -/
theorem noteIf_silent {r r' : Run P S} (h : Silent r r') (published : Bool) (chan : ChannelKey) (id : Nat) (last : Bool) :
    Silent r (if published = true then r'.noteBatch chan id last else r') := by
  split
  · exact h.trans (modifyBatching_silent r' chan _)
  · exact h

theorem batch_silent (r : Run P S) (id : Nat) (whole : Prop) [Decidable whole] (changes : List (Change P S))
    (last : Bool) : Silent r (if whole then r.emitRebaseline rd cx channel id
      else r.sendBook rd cx channel id changes false last).1 := by
  split
  · exact emitRebaseline_silent r id
  · exact sendBook_silent r id changes false last

theorem closeOpenOne_silent (owed : Finset Nat) (x : Run P S × Finset Nat) (id : Nat) :
    Silent x.1 (Run.closeOpenOne rd cx channel owed x id).1 := by
  unfold Run.closeOpenOne
  simp only
  have hbatch : Silent x.1 (if id ∈ owed then x.1.emitRebaseline rd cx channel id
      else x.1.sendBook rd cx channel id [] false true).1 := batch_silent x.1 id (id ∈ owed) [] true
  generalize (if id ∈ owed then x.1.emitRebaseline rd cx channel id
    else x.1.sendBook rd cx channel id [] false true) = y at hbatch ⊢
  split
  · exact hbatch
  · exact hbatch.trans (.emit _ rfl)

theorem closeOpen_silent (r : Run P S) (owed : Finset Nat) : Silent r (r.closeOpen rd cx channel owed) := by
  unfold Run.closeOpen
  have hloop : ∀ (ids : List Nat) (x : Run P S × Finset Nat),
      Silent x.1 (ids.foldl (Run.closeOpenOne rd cx channel owed) x).1 := .foldl Prod.fst (closeOpenOne_silent owed)
  exact ((modifyBatching_silent r _ _).trans (hloop _ (_, ∅))).trans (modifyBatching_silent _ _ _)

theorem noteResetCount_silent (r : Run P S) (chan : ChannelKey) (resetCount : Nat) :
    Silent r (noteResetCount r chan resetCount).1 := by
  unfold noteResetCount
  simp only
  refine Silent.trans ?_ (.proc _ rfl rfl)
  split
  · exact .refl r
  · refine Silent.trans (evictWhile_rule _ _ (P := fun r' : Run P S => Silent r r') (fun r' old hr' => ?_)
      r.proc.channelOrder r (.refl r)) (.proc _ rfl rfl)
    exact (hr'.trans (dropBatching_silent r' old)).trans (.proc _ rfl rfl)

theorem closeOne_silent (openIds owed : Finset Nat) (x : Frame P S × Finset Nat) (id : Nat) :
    Silent x.1.toRun (Frame.closeOne rd cx channel openIds owed x id).1.toRun := by
  unfold Frame.closeOne
  simp only
  split
  · exact .refl _
  · have hbatch : Silent x.1.toRun (if id ∈ x.1.revealedNow ∨ id ∈ owed then x.1.toRun.emitRebaseline rd cx channel id
        else x.1.toRun.sendBook rd cx channel id ((x.1.accum.get id).getD []) false true).1 :=
      batch_silent x.1.toRun id (id ∈ x.1.revealedNow ∨ id ∈ owed) ((x.1.accum.get id).getD []) true
    generalize (if id ∈ x.1.revealedNow ∨ id ∈ owed then x.1.toRun.emitRebaseline rd cx channel id
      else x.1.toRun.sendBook rd cx channel id ((x.1.accum.get id).getD []) false true) = y at hbatch ⊢
    split
    · exact hbatch
    · exact hbatch.trans (.emit _ rfl)

theorem onBatchBoundary_silent (f : Frame P S) (batchId : Nat) :
    Silent f.toRun (f.onBatchBoundary rd cx channel batchId).toRun := by
  have hloop : ∀ (openIds owed : Finset Nat) (ids : List Nat) (x : Frame P S × Finset Nat),
      Silent x.1.toRun (ids.foldl (Frame.closeOne rd cx channel openIds owed) x).1.toRun := fun openIds owed =>
    .foldl (fun x : Frame P S × Finset Nat => x.1.toRun) (closeOne_silent openIds owed)
  unfold Frame.onBatchBoundary
  simp only
  split
  · split
    · exact .refl _
    · refine Silent.trans (Silent.trans ?_ (hloop _ _ _ (_, ∅))) (modifyBatching_silent _ _ _)
      exact .proc f.toRun rfl rfl
  · exact .refl _

theorem noteDroppedGroup_silent (f : Frame P S) (chan : ChannelKey) (snapshotId : Nat) (reason : DropReason) :
    Silent f.toRun (f.noteDroppedGroup chan snapshotId reason).toRun := .proc f.toRun rfl rfl

theorem onSnapshotLevel_silent (f : Frame P S) (l : SnapshotLevel) :
    Silent f.toRun (f.onSnapshotLevel cx channel l).toRun := by
  unfold Frame.onSnapshotLevel
  split
  · exact .refl _
  · split
    · exact withBook_silent f.toRun _ _
    · exact .refl _

theorem onSnapshotEnd_silent (f : Frame P S) (e : SnapshotEnd) :
    Silent f.toRun (f.onSnapshotEnd rd cx channel e).toRun := by
  unfold Frame.onSnapshotEnd
  simp only
  split
  · exact .refl _
  · split
    · let r₀ : Run P S := { f.toRun with proc := { f.proc with «open» := f.proc.open.erase ⟨cx.publisher, channel⟩ } }
      have hroute : Silent f.toRun r₀ := .proc f.toRun rfl rfl
      have hset := hroute.trans (withBook_silent r₀ (Frame.bookKey cx channel e.instrumentId)
        fun b => b.onSnapshotEnd e.anchorSeq e.snapshotId)
      show Silent f.toRun (Frame.toRun (if (r₀.withBook (Frame.bookKey cx channel e.instrumentId)
        fun b => b.onSnapshotEnd e.anchorSeq e.snapshotId).2 = some true then _ else _))
      generalize (r₀.withBook (Frame.bookKey cx channel e.instrumentId)
        fun b => b.onSnapshotEnd e.anchorSeq e.snapshotId) = x at hset ⊢
      refine hset.trans ?_
      split
      · exact noteIf_silent (emitRebaseline_silent _ e.instrumentId) _ _ _ _
      · exact .refl _
    · exact .proc f.toRun rfl rfl

theorem emitOne_silent (closes : Bool) (owed : Finset Nat) (f : Frame P S) (e : Nat × List (Change P S)) :
    Silent f.toRun (f.emitOne rd cx channel closes owed e).toRun := by
  unfold Frame.emitOne
  simp only
  split
  · exact noteIf_silent (emitRebaseline_silent f.toRun e.1) _ _ _ _
  · split
    · exact noteIf_silent (sendBook_silent f.toRun e.1 e.2 false closes) _ _ _ _
    · exact .refl _

theorem emitRevealed_silent (accumKeys : Finset Nat) (f : Frame P S) (id : Nat) :
    Silent f.toRun (f.emitRevealed rd cx channel accumKeys id).toRun := by
  unfold Frame.emitRevealed
  split
  · exact .refl _
  · exact noteIf_silent (emitRebaseline_silent f.toRun id) _ _ _ _

end Silence

/-! ## One message -/

/-- The memo of a call in progress is in step with the history. -/
abbrev Run.InStep {P S : Type} (rd : Render P S) (cx : Ctx P S) (past : List (Mark P S)) (healthy : PriceBookKey → Prop)
    (r : Run P S) : Prop :=
  Filed (marketOf rd cx) (r.marks past) healthy r.proc

section Messages

variable {P S : Type} {rd : Render P S} {cx : Ctx P S} {channel : Nat} {past : List (Mark P S)}
  {healthy : PriceBookKey → Prop} {r : Run P S} {f : Frame P S}

theorem ensureBook_inStep (h : r.InStep rd cx past healthy) (id : Nat) :
    (r.ensureBook rd cx channel id).1.InStep rd cx past healthy := by
  unfold Run.ensureBook
  split
  · exact h
  · simp only
    split
    · exact h
    · have hroom := evictWhile_rule (fun r : Run P S => decide (r.proc.books.size ≥ MAX_PRICE_BOOKS))
        (fun r old => Run.forgetBook rd cx (Run.reportHealth rd cx r old false) old)
        (P := fun r => r.InStep rd cx past healthy) (fun _ old hr => reportForget_filed hr old) r.proc.booksOrder r h
      exact hroom.quiet (.proc _ rfl rfl)

theorem reveal_inStep (h : f.toRun.InStep rd cx past healthy) (key : PriceBookKey) (sourceId : Nat) :
    (f.reveal rd cx key sourceId).toRun.InStep rd cx past healthy :=
  revealIfNeeded_filed h key sourceId

theorem onDelta_inStep (h : f.toRun.InStep rd cx past healthy) (id sourceId : Nat) (op : DeltaOp)
    (changes : List (UInt8 × Int) → List (Change P S)) :
    (f.onDelta rd cx channel id sourceId op changes).toRun.InStep rd cx past healthy := by
  unfold Frame.onDelta
  have hbook : (f.toRun.ensureBook rd cx channel id).1.InStep rd cx past healthy := ensureBook_inStep h id
  generalize f.toRun.ensureBook rd cx channel id = x at hbook ⊢
  obtain ⟨r, key⟩ := x
  cases key with
  | none => exact hbook
  | some key =>
    simp only
    have hdelta := hbook.quiet (withBook_silent r key fun b => ((b.onDelta op).1, (b.onDelta op).2))
    generalize r.withBook key (fun b => ((b.onDelta op).1, (b.onDelta op).2)) = y at hdelta ⊢
    obtain ⟨r', out⟩ := y
    cases out with
    | none => exact hdelta
    | some out =>
      have hreveal := reveal_inStep (f := { f with toRun := r', touched := insert id f.touched }) hdelta key sourceId
      obtain ⟨removed, outcome⟩ := out
      cases outcome <;> exact hreveal

theorem onTrade_inStep (h : f.toRun.InStep rd cx past healthy) (t : Trade) :
    (f.onTrade rd cx channel t).toRun.InStep rd cx past healthy := by
  unfold Frame.onTrade
  split
  · exact h
  · have hbook : (f.toRun.ensureBook rd cx channel t.instrumentId).1.InStep rd cx past healthy :=
      ensureBook_inStep h t.instrumentId
    generalize f.toRun.ensureBook rd cx channel t.instrumentId = x at hbook ⊢
    obtain ⟨r, key⟩ := x
    simp only
    have htape : ∀ (g : Frame P S) (o : Out P S), o.silent = true → g.toRun.InStep rd cx past healthy →
        (if cx.tape = true then { g with toRun := g.toRun.emit o } else g).toRun.InStep rd cx past healthy := by
      intro g o ho hg
      split
      · exact hg.quiet (.emit g.toRun ho)
      · exact hg
    refine htape _ _ rfl ?_
    cases key with
    | none => exact hbook
    | some key => exact reveal_inStep (f := { f with toRun := r }) hbook key t.sourceId

theorem onSnapshotBegin_inStep (h : f.toRun.InStep rd cx past healthy) (resetCount : Nat) (s : SnapshotBegin) :
    (f.onSnapshotBegin rd cx channel resetCount s).toRun.InStep rd cx past healthy := by
  unfold Frame.onSnapshotBegin
  simp only
  have htomb : Run.InStep rd cx past healthy (if f.proc.dropped.contains ⟨cx.publisher, channel⟩ = true then
      { f with proc := { f.proc with dropped := f.proc.dropped.insert ⟨cx.publisher, channel⟩ none } } else f).toRun := by
    split
    · exact h.quiet (.proc f.toRun rfl rfl)
    · exact h
  generalize (if f.proc.dropped.contains ⟨cx.publisher, channel⟩ = true then
      { f with proc := { f.proc with dropped := f.proc.dropped.insert ⟨cx.publisher, channel⟩ none } } else f) = g at htomb ⊢
  split
  · exact htomb.quiet (noteDroppedGroup_silent g _ _ _)
  · have hbook : (g.toRun.ensureBook rd cx channel s.instrumentId).1.InStep rd cx past healthy :=
      ensureBook_inStep htomb s.instrumentId
    generalize g.toRun.ensureBook rd cx channel s.instrumentId = x at hbook ⊢
    obtain ⟨r, key⟩ := x
    cases key with
    | none => exact hbook.quiet (noteDroppedGroup_silent { g with toRun := r } _ _ _)
    | some key =>
      simp only
      have hbegin := hbook.quiet (withBook_silent r key fun b => b.onSnapshotBegin s.snapshotId s.anchorSeq
        s.totalLevels s.lastInstrumentSeq s.depthBound cx.recvTsNs)
      generalize r.withBook key (fun b => b.onSnapshotBegin s.snapshotId s.anchorSeq
        s.totalLevels s.lastInstrumentSeq s.depthBound cx.recvTsNs) = y at hbegin ⊢
      split
      · exact hbegin.quiet (.proc y.1 rfl rfl)
      · exact hbegin

/-- A reset reports the book unhealthy, then unreveals it. -/
theorem onInstrumentReset_inStep (h : f.toRun.InStep rd cx past healthy) (id newAnchorSeq : Nat) :
    (f.onInstrumentReset rd cx channel id newAnchorSeq).toRun.InStep rd cx past healthy := by
  unfold Frame.onInstrumentReset
  extract_lets chan key g
  suffices hg : g.toRun.InStep rd cx past healthy by
    split
    · exact hg
    · exact hg.quiet (.proc g.toRun rfl rfl)
  unfold g key
  have hreset := h.quiet (withBook_silent f.toRun (Frame.bookKey cx channel id)
    fun b => (b.onInstrumentReset newAnchorSeq, ()))
  generalize f.toRun.withBook (Frame.bookKey cx channel id) (fun b => (b.onInstrumentReset newAnchorSeq, ())) = x at hreset ⊢
  obtain ⟨r, out⟩ := x
  cases out with
  | none => exact h
  | some out =>
    simp only
    obtain ⟨hfiled, hgone⟩ := unhealthy_filed hreset (Frame.bookKey cx channel id)
    generalize r.reportHealth rd cx (Frame.bookKey cx channel id) false = r₁ at hfiled hgone ⊢
    have hsilent : Silent r₁ (r₁.forgetSourcePath rd cx (Frame.bookKey cx channel id)) := forgetSourcePath_silent r₁ _
    have hpath := hfiled.quiet hsilent
    rw [← hsilent.memo] at hgone
    exact hpath.eraseRevealed hgone

theorem onEndOfSession_inStep (h : f.toRun.InStep rd cx past healthy) :
    (f.onEndOfSession rd cx channel).toRun.InStep rd cx past healthy := by
  have hloop : ∀ (ks : List PriceBookKey) (f : Frame P S), f.toRun.InStep rd cx past healthy →
      (ks.foldl (Frame.endOne rd cx) f).toRun.InStep rd cx past healthy := by
    intro ks
    induction ks with
    | nil => exact fun _ hf => hf
    | cons k ks ih =>
      exact fun f hf => ih _ (unhealthy_filed (hf.quiet (withBook_silent f.toRun k fun b => (b.onEndOfSession, ()))) k).1
  unfold Frame.onEndOfSession
  simp only
  have hends := hloop (visit cx.order (f.proc.books.keys.filter fun k => k.chan = ⟨cx.publisher, channel⟩)) f h
  generalize (visit cx.order (f.proc.books.keys.filter fun k => k.chan = ⟨cx.publisher, channel⟩)).foldl
    (Frame.endOne rd cx) f = g at hends ⊢
  have hdrop := hends.quiet (dropBatching_silent g.toRun ⟨cx.publisher, channel⟩)
  generalize g.toRun.dropBatching ⟨cx.publisher, channel⟩ = r at hdrop ⊢
  split
  · exact hdrop.quiet (.proc r rfl rfl)
  · exact hdrop.quiet (.proc r rfl rfl)

theorem onInstrumentDefinition_inStep (h : f.toRun.InStep rd cx past healthy) (d : InstrumentDefinition) :
    (f.onInstrumentDefinition rd cx channel d).toRun.InStep rd cx past healthy := by
  unfold Frame.onInstrumentDefinition
  extract_lets key r r₀ p r₁ r₂
  have hannounced : r₀.InStep rd cx past healthy := by
    unfold r₀
    split
    · exact h
    · split
      · exact h.quiet (.emit f.toRun rfl)
      · exact h
  have hdefined : r₁.InStep rd cx past healthy := hannounced.quiet (.proc r₀ rfl rfl)
  show r₂.InStep rd cx past healthy
  unfold r₂
  split
  · exact hdefined
  · exact revealIfNeeded_filed hdefined key _

/-- **One message keeps the memo in step.** -/
theorem onMessage_inStep (h : f.toRun.InStep rd cx past healthy) (header : Header) (fresh : Bool) (m : Message) :
    (f.onMessage rd cx header fresh m).toRun.InStep rd cx past healthy := by
  cases m with
  | manifestSummary valid manifestSeq instrumentCount =>
    unfold Frame.onMessage
    simp only
    split
    · exact h.quiet (.proc f.toRun rfl rfl)
    · exact h
  | instrumentDefinition d =>
    unfold Frame.onMessage
    simp only
    split
    · exact onInstrumentDefinition_inStep h d
    · exact h
  | levelUpdate l =>
    show (f.onLevelUpdate rd cx header.channelId header.sequence l).toRun.InStep rd cx past healthy
    unfold Frame.onLevelUpdate
    split
    · exact h
    · exact onDelta_inStep h _ _ _ _
  | bookClear c =>
    show (f.onBookClear rd cx header.channelId header.sequence c).toRun.InStep rd cx past healthy
    unfold Frame.onBookClear
    split
    · exact h
    · exact onDelta_inStep h _ _ _ _
  | snapshotBegin s => exact onSnapshotBegin_inStep h _ s
  | snapshotLevel l => exact h.quiet (onSnapshotLevel_silent f l)
  | snapshotEnd e => exact h.quiet (onSnapshotEnd_silent f e)
  | instrumentReset id newAnchorSeq => exact onInstrumentReset_inStep h id newAnchorSeq
  | endOfSession ts => exact onEndOfSession_inStep h
  | batchBoundary batchId =>
    unfold Frame.onMessage
    simp only
    split
    · exact h.quiet (onBatchBoundary_silent f batchId)
    · exact h
  | trade t => exact onTrade_inStep h t
  | other => exact h

end Messages

/-! ## The ends of a datagram -/

section Ends

variable {P S : Type} {rd : Render P S} {cx : Ctx P S} {channel : Nat} {past : List (Mark P S)}
  {healthy : PriceBookKey → Prop} {r r' : Run P S} {f : Frame P S} {p : MbpProcessor} {hist : List (Mark P S)}

theorem StandsHealthy.of_silent {os : List (Out P S)} (hout : r'.out = r.out ++ os) (hos : ∀ o ∈ os, o.silent = true)
    {key : PriceBookKey} {m : BookKey} (h : StandsHealthy (r'.marks past) key m) : StandsHealthy (r.marks past) key m := by
  unfold Run.marks at h ⊢
  rw [hout, List.map_append, ← List.append_assoc] at h
  exact h.of_append (Mark.silent_out hos)

theorem forgetBook_out (r : Run P S) (key : PriceBookKey) :
    ∃ os, (r.forgetBook rd cx key).out = r.out ++ os ∧ ∀ o ∈ os, o.silent = true := by
  have hsilent : ∀ r : Run P S, Silent r (r.forgetSourcePath rd cx key) := fun r => forgetSourcePath_silent r key
  unfold Run.forgetBook
  exact (hsilent _).out

/-- What is kept beside the books of a publisher goes, once no report of it stands. -/
theorem Filed.purge {market : PriceBookKey → Nat → BookKey} (h : Filed market hist healthy p) {publisher : IpAddr}
    (hgone : ∀ key m, key.publisher = publisher → ¬ StandsHealthy hist key m) :
    Filed market hist healthy { p with
      revealed := p.revealed.filter fun k _ => !decide (k.publisher = publisher)
      healthReported := p.healthReported.filter fun k _ => !decide (k.publisher = publisher) } := by
  have hmemo : ∀ k id, (p.healthReported.filter fun k _ => !decide (k.publisher = publisher)).get k = some (id, true) →
      k.publisher ≠ publisher ∧ p.healthReported.get k = some (id, true) := by
    intro k id hk
    rw [FinMap.get_filter] at hk
    obtain ⟨hk, hne⟩ := Option.filter_eq_some_iff.mp hk
    exact ⟨by simpa using hne, hk⟩
  have hkept : ∀ k id, k.publisher ≠ publisher → p.revealed.get k = some id →
      (p.revealed.filter fun k _ => !decide (k.publisher = publisher)).get k = some id := by
    intro k id hne hk
    rw [FinMap.get_filter]
    exact Option.filter_eq_some_iff.mpr ⟨hk, by simpa using hne⟩
  refine ⟨fun k id m hm hk => ?_, fun k m hm => ?_, fun k m hm => ?_, fun k id hk => ?_,
    fun k id hk => h.healthy k id (hmemo k id hk).2⟩
  · change (p.revealed.filter fun k _ => !decide (k.publisher = publisher)).get k = some id at hk
    rw [FinMap.get_filter] at hk
    exact h.named k id m hm (Option.filter_eq_some_iff.mp hk).1
  · obtain ⟨id, hid⟩ := h.standing k m hm
    refine ⟨id, ?_⟩
    show (p.healthReported.filter fun k _ => !decide (k.publisher = publisher)).get k = some (id, true)
    rw [FinMap.get_filter]
    refine Option.filter_eq_some_iff.mpr ⟨hid, ?_⟩
    simpa using fun heq => hgone k m heq hm
  · obtain ⟨id, hid, hmarket⟩ := h.placed k m hm
    exact ⟨id, hkept k id (fun heq => hgone k m heq hm) hid, hmarket⟩
  · obtain ⟨hne, hk⟩ := hmemo k id hk
    obtain ⟨id', hid'⟩ := Option.isSome_iff_exists.mp (h.revealed k id hk)
    exact Option.isSome_of_eq_some (hkept k id' hne hid')

/-- A publisher goes without a report: what it has standing went with its eviction. -/
theorem forgetPublisher_inStep (h : r.InStep rd cx past healthy) (publisher : IpAddr)
    (hgone : ∀ key m, key.publisher = publisher → ¬ StandsHealthy (r.marks past) key m) :
    (r.forgetPublisher rd cx publisher).InStep rd cx past healthy := by
  unfold Run.forgetPublisher
  simp only
  have hloop : ∀ (ks : List PriceBookKey) (r : Run P S), (∀ k ∈ ks, k.publisher = publisher) →
      r.InStep rd cx past healthy → (∀ key m, key.publisher = publisher → ¬ StandsHealthy (r.marks past) key m) →
      (ks.foldl (Run.forgetBook rd cx) r).InStep rd cx past healthy ∧
        ∀ key m, key.publisher = publisher →
          ¬ StandsHealthy ((ks.foldl (Run.forgetBook rd cx) r).marks past) key m := by
    intro ks
    induction ks with
    | nil => exact fun r _ hr hstands => ⟨hr, hstands⟩
    | cons k ks ih =>
      intro r hks hr hstands
      obtain ⟨os, hout, hos⟩ : ∃ os, (r.forgetBook rd cx k).out = r.out ++ os ∧ ∀ o ∈ os, o.silent = true :=
        forgetBook_out r k
      exact ih _ (fun k' hk' => hks k' (List.mem_cons_of_mem _ hk'))
        (forgetBook_filed hr fun m => hstands k m (hks k List.mem_cons_self))
        fun key m hkey hs => hstands key m hkey (StandsHealthy.of_silent hout hos hs)
  obtain ⟨hbooks, hstands⟩ := hloop (visit cx.order (r.proc.books.keys.filter fun k =>
    decide (k.publisher = publisher) = true)) r (fun k hk => by
      simpa using (Finset.mem_filter.mp (mem_visit.mp hk)).2) h hgone
  generalize (visit cx.order (r.proc.books.keys.filter fun k => decide (k.publisher = publisher) = true)).foldl
    (Run.forgetBook rd cx) r = r₁ at hbooks hstands ⊢
  generalize visit cx.order (r₁.proc.revealed.keys.filter fun k => decide (k.publisher = publisher) = true) = named
  have hpaths : Silent r₁ (named.foldl (Run.forgetSourcePath rd cx) r₁) :=
    .foldl (fun r => r) (fun r k => forgetSourcePath_silent r k) named r₁
  generalize named.foldl (Run.forgetSourcePath rd cx) r₁ = r₂ at hpaths ⊢
  generalize visit [] (r₂.proc.batching.keys.filter fun k => k.publisher = publisher) = chans
  have hall : Silent r₁ (chans.foldl Run.dropBatching r₂) := hpaths.trans (.foldl (fun r => r) dropBatching_silent chans r₂)
  generalize chans.foldl Run.dropBatching r₂ = r₃ at hall ⊢
  obtain ⟨os, hout, hos⟩ := hall.out
  have hpurged := (hbooks.quiet hall).purge fun key m hkey hs =>
    hstands key m hkey (StandsHealthy.of_silent hout hos hs)
  exact hpurged.of_eq rfl rfl

theorem onChannelReset_inStep (h : r.InStep rd cx past healthy) (resetCount : Nat) :
    (r.onChannelReset rd cx channel resetCount).InStep rd cx past healthy := by
  unfold Run.onChannelReset
  simp only
  have hbooks : Run.InStep rd cx past healthy _ := foldl_filed
    (fun r key => Run.forgetBook rd cx (Run.reportHealth rd cx r key false) key)
    (fun r key hr => reportForget_filed hr key)
    (visit cx.order (r.proc.books.keys.filter fun k => k.chan = ⟨cx.publisher, channel⟩)) r h
  exact (hbooks.quiet (dropBatching_silent _ ⟨cx.publisher, channel⟩)).quiet (.proc _ rfl rfl)

/-- The publisher that a header evicts from the reference data. -/
def evictedBy (cx : Ctx P S) (h : Header) (p : MbpProcessor) : Option IpAddr :=
  if cx.role.handlesRefdata then (p.state.modify cx.publisher fun s => s.onDatagram h.resetCount).lastEvicted
  else none

def evictions (cx : Ctx P S) (h : Header) (p : MbpProcessor) : List (Mark P S) :=
  (evictedBy cx h p).toList.map .evicted

/-- Nothing of an evicted publisher stands. -/
theorem Filed.evict {market : PriceBookKey → Nat → BookKey} (h : Filed market hist healthy p) (publisher : IpAddr) :
    Filed market (hist ++ [.evicted publisher]) healthy p ∧
      ∀ key m, key.publisher = publisher → ¬ StandsHealthy (hist ++ [.evicted publisher]) key m := by
  refine ⟨h.append fun m hm => ?_, fun key m hkey hs => ?_⟩
  · rw [List.mem_singleton.mp hm]
    rfl
  · exact (StandsHealthy.of_snoc (fun _ _ _ heq => by cases heq) hs).2 hkey.symm

/-- A call that has handed on nothing yet. -/
theorem Filed.start (h : Filed (Run.marketOf rd cx) hist healthy p) {p' : MbpProcessor}
    (hmemo : p'.healthReported = p.healthReported) (hrevealed : p'.revealed = p.revealed) :
    Run.InStep rd cx hist healthy (⟨p', []⟩ : Run P S) := by
  have hmarks : Run.marks hist (⟨p', []⟩ : Run P S) = hist := List.append_nil hist
  unfold Run.InStep
  rw [hmarks]
  exact h.of_eq hmemo hrevealed

/-- The books of an evicted publisher go. -/
theorem Filed.evicts (h : Filed (Run.marketOf rd cx) hist healthy p) (publisher : IpAddr) {p' : MbpProcessor}
    (hmemo : p'.healthReported = p.healthReported) (hrevealed : p'.revealed = p.revealed) :
    (Run.forgetPublisher rd cx (⟨p', []⟩ : Run P S) publisher).InStep rd cx (hist ++ [.evicted publisher]) healthy := by
  obtain ⟨hfiled, hgone⟩ := h.evict publisher
  have hmarks : Run.marks (hist ++ [.evicted publisher]) (⟨p', []⟩ : Run P S) = hist ++ [.evicted publisher] :=
    List.append_nil _
  refine forgetPublisher_inStep (hfiled.start hmemo hrevealed) publisher ?_
  rw [hmarks]
  exact hgone

/-- **A header keeps the memo in step.** -/
theorem begin_inStep (h : Filed (Run.marketOf rd cx) past healthy p) (header : Header) :
    (begin rd cx header p).1.toRun.InStep rd cx (past ++ evictions cx header p) healthy := by
  unfold begin
  simp only
  generalize (if cx.role.handlesMktdata = true then
      ((p.seq.check cx.publisher header.channelId header.resetCount header.sequence cx.monoNs).1,
        decide ((p.seq.check cx.publisher header.channelId header.resetCount header.sequence cx.monoNs).2 ≠ .stale))
      else (p.seq, true)) = x
  have hera : ∀ (hist : List (Mark P S)) (r : Run P S), r.InStep rd cx hist healthy → Run.InStep rd cx hist healthy
      (if cx.role.handlesMktdata = true ∧ r.proc.state.states.contains cx.publisher = true then
        if ((noteResetCount r ⟨cx.publisher, header.channelId⟩ header.resetCount).2.any fun c => c ≠ header.resetCount) = true
        then (noteResetCount r ⟨cx.publisher, header.channelId⟩ header.resetCount).1.onChannelReset rd cx header.channelId
          header.resetCount
        else (noteResetCount r ⟨cx.publisher, header.channelId⟩ header.resetCount).1
      else r) := by
    intro hist r hr
    split
    · have hnote := hr.quiet (noteResetCount_silent r ⟨cx.publisher, header.channelId⟩ header.resetCount)
      split
      · exact onChannelReset_inStep hnote header.resetCount
      · exact hnote
    · exact hr
  have hlane : ∀ (hist : List (Mark P S)) (r : Run P S), r.InStep rd cx hist healthy → Run.InStep rd cx hist healthy
      (if cx.role.handlesMktdata = true ∧ r.proc.lastReset.contains ⟨cx.publisher, header.channelId⟩ = true then
        { r with
          proc := { r.proc with
            batching := r.proc.batching.insert ⟨cx.publisher, header.channelId⟩
              { (r.proc.batching.get ⟨cx.publisher, header.channelId⟩).getD .new with
                sinceBoundary := min (((r.proc.batching.get ⟨cx.publisher, header.channelId⟩).getD .new).sinceBoundary + 1)
                  (2 ^ 32 - 1) } } }
      else r) := by
    intro hist r hr
    split
    · exact hr.quiet (.proc r rfl rfl)
    · exact hr
  refine hlane _ _ (hera _ _ ?_)
  unfold evictions evictedBy
  split
  · split
    · rename_i hnone
      rw [hnone, Option.toList_none, List.map_nil, List.append_nil]
      exact h.start rfl rfl
    · rename_i evicted hevicted
      rw [hevicted, Option.toList_some, List.map_singleton]
      exact h.evicts evicted rfl rfl
  · rw [Option.toList_none, List.map_nil, List.append_nil]
    exact h.start rfl rfl

theorem messages_inStep (header : Header) (fresh : Bool) : ∀ (ms : List Message) (f : Frame P S),
    f.toRun.InStep rd cx past healthy →
    (ms.foldl (Frame.onMessage rd cx header fresh) f).toRun.InStep rd cx past healthy
  | [], _, h => h
  | m :: ms, _, h => messages_inStep header fresh ms _ (onMessage_inStep h header fresh m)

theorem enforceBufferBudget_inStep (h : r.InStep rd cx past healthy) (n : Nat) :
    (Run.enforceBufferBudget rd cx n r).InStep rd cx past healthy := by
  rw [enforceBufferBudget_eq]
  exact foldl_filed (dropLargest rd cx)
    (fun r key hr => (unhealthy_filed (hr.quiet (withBook_silent r key fun b => (b.dropBuffer, ()))) key).1) _ r h

/-! ## The health pass -/

/-- The health of a book at the end of a datagram that touched it. -/
def touchedMark (cx : Ctx P S) (channel : Nat) (books : FinMap PriceBookKey PriceBook) (id : Nat) : List (Mark P S) :=
  match books.get (Frame.bookKey cx channel id) with
  | none => []
  | some b => [.touched (Frame.bookKey cx channel id) (b.servesABook cx.recvTsNs)]

theorem lastServed_touched (key k : PriceBookKey) (s : Bool) :
    lastServed (hist ++ [.touched key s]) k = if key = k then some s else lastServed hist k := by
  have hserves : Mark.serves k (.touched key s : Mark P S) = if key = k then some s else none := rfl
  unfold lastServed
  rw [Upheld.latest_snoc, hserves]
  split
  · rfl
  · rfl

/-- **The health pass files what the books it touches serve.** -/
theorem reportTouched_inStep : ∀ (ids : List Nat) (f : Frame P S) (hist : List (Mark P S)),
    f.toRun.InStep rd cx past (fun k => lastServed hist k = some true) →
    (ids.foldl (Frame.reportTouched rd cx channel) f).toRun.InStep rd cx past
      fun k => lastServed (hist ++ ids.flatMap (touchedMark cx channel f.proc.books)) k = some true
  | [], f, hist, h => by
    rw [List.flatMap_nil, List.append_nil]
    exact h
  | id :: ids, f, hist, h => by
    have hbooks : (f.reportTouched rd cx channel id).proc.books = f.proc.books :=
      congrArg View.books (reportTouched_view [] f id ∅ ∅)
    have hone : (f.reportTouched rd cx channel id).toRun.InStep rd cx past
        fun k => lastServed (hist ++ touchedMark cx channel f.proc.books id) k = some true := by
      unfold Frame.reportTouched touchedMark
      simp only
      cases f.proc.books.get (Frame.bookKey cx channel id) with
      | none =>
        simp only [List.append_nil]
        exact h
      | some b =>
        refine (reportHealth_filed h (Frame.bookKey cx channel id) (b.servesABook cx.recvTsNs)).mono fun k hk => ?_
        rw [lastServed_touched]
        by_cases hkey : Frame.bookKey cx channel id = k
        · rw [if_pos hkey]
          rw [if_pos hkey.symm] at hk
          rw [hk]
        · rw [if_neg hkey]
          rwa [if_neg (Ne.symm hkey)] at hk
    have hrest := reportTouched_inStep ids _ _ hone
    rw [hbooks] at hrest
    rw [List.foldl_cons, List.flatMap_cons, ← List.append_assoc]
    exact hrest

theorem emitOne_touched (closes : Bool) (owed : Finset Nat) (f : Frame P S) (e : Nat × List (Change P S)) :
    (f.emitOne rd cx channel closes owed e).touched = f.touched := by
  unfold Frame.emitOne
  simp only
  split
  · rfl
  · split
    · rfl
    · rfl

theorem emitRevealed_touched (accumKeys : Finset Nat) (f : Frame P S) (id : Nat) :
    (f.emitRevealed rd cx channel accumKeys id).touched = f.touched := by
  unfold Frame.emitRevealed
  split
  · rfl
  · rfl

/-- The health of the books that a datagram touched, at its end. -/
def Frame.served (cx : Ctx P S) (channel : Nat) (f : Frame P S) : List (Mark P S) :=
  (f.touched.sort (· ≤ ·)).flatMap (touchedMark cx channel f.proc.books)

theorem served_eq {f' : Frame P S} (htouched : f'.touched = f.touched) (hledger : f'.proc.ledger = f.proc.ledger) :
    f'.served cx channel = f.served cx channel := by
  have hbooks : f'.proc.books = f.proc.books := congrArg Ledger.books hledger
  unfold Frame.served
  rw [htouched, hbooks]

/-- **The end of a datagram** files what its books serve. -/
theorem emitPass_inStep (h : f.toRun.InStep rd cx past fun k => lastServed hist k = some true) :
    (f.emitPass rd cx channel).toRun.InStep rd cx past
      fun k => lastServed (hist ++ f.served cx channel) k = some true := by
  unfold Frame.emitPass
  simp only
  generalize (!Run.batchesEvents f.proc ⟨cx.publisher, channel⟩ cx.recvTsNs) = closes
  generalize hf₁ : (if closes = true then
      { f with toRun := f.toRun.modifyBatching ⟨cx.publisher, channel⟩ fun b => { b with slotLapsed := true } }
      else f : Frame P S) = f₁
  have hlapsed : Silent f.toRun f₁.toRun ∧ f₁.served cx channel = f.served cx channel := by
    rw [← hf₁]
    split
    · exact ⟨modifyBatching_silent f.toRun _ _, served_eq rfl (modifyBatching_ledger _ _)⟩
    · exact ⟨.refl _, rfl⟩
  clear hf₁
  generalize (if closes = true then f₁.toRun.rebaselinesOwed rd cx channel _ else ∅) = owed
  have hsent : Silent f₁.toRun (f₁.accum.toList.foldl (Frame.emitOne rd cx channel closes owed) f₁).toRun ∧
      (f₁.accum.toList.foldl (Frame.emitOne rd cx channel closes owed) f₁).served cx channel = f₁.served cx channel :=
    ⟨.foldl Frame.toRun (emitOne_silent closes owed) _ f₁,
      served_eq (foldl_keeps Frame.touched _ (emitOne_touched closes owed) _ _)
        (foldl_keeps (fun f : Frame P S => f.proc.ledger) _ (emitOne_ledger closes owed) _ _)⟩
  generalize f₁.accum.toList.foldl (Frame.emitOne rd cx channel closes owed) f₁ = f₂ at hsent ⊢
  have hrevealed : Silent f₂.toRun
        ((f₂.revealedNow.sort (· ≤ ·)).foldl (Frame.emitRevealed rd cx channel f₂.accum.keys) f₂).toRun ∧
      ((f₂.revealedNow.sort (· ≤ ·)).foldl (Frame.emitRevealed rd cx channel f₂.accum.keys) f₂).served cx channel =
        f₂.served cx channel :=
    ⟨.foldl Frame.toRun (emitRevealed_silent f₂.accum.keys) _ f₂,
      served_eq (foldl_keeps Frame.touched _ (emitRevealed_touched f₂.accum.keys) _ _)
        (foldl_keeps (fun f : Frame P S => f.proc.ledger) _ (emitRevealed_ledger f₂.accum.keys) _ _)⟩
  generalize (f₂.revealedNow.sort (· ≤ ·)).foldl (Frame.emitRevealed rd cx channel f₂.accum.keys) f₂ = f₃ at hrevealed ⊢
  generalize hf₄ : (if closes = true then { f₃ with toRun := f₃.toRun.closeOpen rd cx channel owed } else f₃ : Frame P S) =
    f₄
  have hclosed : Silent f₃.toRun f₄.toRun ∧ f₄.served cx channel = f₃.served cx channel := by
    rw [← hf₄]
    split
    · exact ⟨closeOpen_silent f₃.toRun owed, served_eq rfl (closeOpen_ledger owed)⟩
    · exact ⟨.refl _, rfl⟩
  clear hf₄
  have hquiet := h.quiet (((hlapsed.1.trans hsent.1).trans hrevealed.1).trans hclosed.1)
  have hserved : f.served cx channel = f₄.served cx channel := by
    rw [hclosed.2, hrevealed.2, hsent.2, hlapsed.2]
  rw [hserved]
  exact reportTouched_inStep _ f₄ hist hquiet

/-- What a datagram's messages and the buffer budget leave, before its end. -/
def applied (rd : Render P S) (cx : Ctx P S) (p : MbpProcessor) (d : Datagram) : Frame P S :=
  let (f, fresh) := begin rd cx d.header p
  let f := d.messages.foldl (Frame.onMessage rd cx d.header fresh) f
  { f with toRun := Run.enforceBufferBudget rd cx f.proc.bufferedTotal f.toRun }

theorem onDatagram_applied (p : MbpProcessor) (d : Datagram) :
    onDatagram rd cx p d = ((applied rd cx p d).emitPass rd cx d.header.channelId).toRun := rfl

/-- **A datagram keeps the memo in step.** -/
theorem onDatagram_inStep (h : Filed (Run.marketOf rd cx) past (fun k => lastServed past k = some true) p) (d : Datagram) :
    (onDatagram rd cx p d).InStep rd cx (past ++ evictions cx d.header p)
      fun k => lastServed (past ++ (applied rd cx p d).served cx d.header.channelId) k = some true := by
  rw [onDatagram_applied]
  refine emitPass_inStep ?_
  unfold applied
  simp only
  exact enforceBufferBudget_inStep (messages_inStep d.header _ d.messages _ (begin_inStep h d.header)) _

theorem onTick_silent (order : List ChannelKey) (p : MbpProcessor) : Silent (⟨p, []⟩ : Run P S) (onTick rd cx order p) := by
  unfold onTick
  refine .foldl (fun r => r) (fun r chan => ?_) _ (⟨p, []⟩ : Run P S)
  unfold tickOne
  exact (modifyBatching_silent r chan _).trans (closeOpen_silent _ _)

end Ends

/-! ## Every run -/

section Histories

variable {P S : Type} {rd : Render P S} {hist : List (Mark P S)} {p : MbpProcessor} {key : PriceBookKey} {market : BookKey}

/-- What a call adds to the history. -/
def marks (rd : Render P S) (p : MbpProcessor) : Input P S → List (Mark P S)
  | .datagram cx d => evictions cx d.header p ++ (onDatagram rd cx p d).out.map .out ++
      (applied rd cx p d).served cx d.header.channelId
  | .tick cx order => (onTick rd cx order p).out.map .out

/-- The processor, answering with its marks. -/
def observer (rd : Render P S) : Machine MbpProcessor (Input P S) (List (Mark P S)) :=
  ⟨fun p i => ((stepWith rd p i).1, marks rd p i)⟩

/-- The marks of a run. -/
def history (rd : Render P S) (is : List (Input P S)) : List (Mark P S) := ((observer rd).trace .new is).flatMap Prod.snd

theorem observer_exec (rd : Render P S) (is : List (Input P S)) : (observer rd).exec .new is = after rd is := by
  have hexec : ∀ (is : List (Input P S)) (p : MbpProcessor), (observer rd).exec p is = (processor rd).exec p is := by
    intro is
    induction is with
    | nil => exact fun _ => rfl
    | cons i is ih => exact fun p => ih _
  exact hexec is .new

theorem lastServed_append (ms : List (Mark P S)) (key : PriceBookKey) :
    lastServed (hist ++ ms) key = (lastServed ms key).or (lastServed hist key) := Upheld.latest_append

/-- What touches no book says nothing of what it serves. -/
theorem lastServed_ignores {ms : List (Mark P S)} (h : ∀ m ∈ ms, ∀ k s, m ≠ .touched k s) (key : PriceBookKey) :
    lastServed (hist ++ ms) key = lastServed hist key := by
  have hnone : latest (Mark.serves key) ms = none := by
    unfold latest
    rw [List.getLast?_eq_none_iff, List.filterMap_eq_nil_iff]
    intro m hm
    cases m with
    | touched k s => exact absurd rfl (h _ hm k s)
    | out o => rfl
    | evicted publisher => rfl
  unfold lastServed
  rw [Upheld.latest_append, hnone]
  rfl

theorem outs_touched {os : List (Out P S)} : ∀ m ∈ os.map (Mark.out (P := P) (S := S)), ∀ k s, m ≠ .touched k s := by
  intro m hm k s heq
  obtain ⟨o, -, rfl⟩ := List.mem_map.mp hm
  cases heq

theorem evictions_touched (cx : Ctx P S) (h : Header) (p : MbpProcessor) :
    ∀ m ∈ evictions (P := P) (S := S) cx h p, ∀ k s, m ≠ .touched k s := by
  intro m hm k s heq
  obtain ⟨publisher, -, rfl⟩ := List.mem_map.mp hm
  cases heq

/-- The market of a book under a Source ID, on one feed row. -/
def rowMarket (rd : Render P S) (category : String) (offset : Option Nat) (key : PriceBookKey) (sourceId : Nat) : BookKey :=
  ⟨rd.sourceKey sourceId, category, canonicalChannel offset key.channel, key.instrumentId⟩

/-- A call for a feed row: its category and its mirror offset are the row's. -/
def Input.OfRow (category : String) (offset : Option Nat) : Input P S → Prop
  | .datagram cx _ | .tick cx _ => cx.category = category ∧ cx.mirrorOffset = offset

/-- The health of the books it touched files and reveals nothing. -/
theorem served_silent (cx : Ctx P S) (channel : Nat) (f : Frame P S) : ∀ m ∈ f.served cx channel, m.silent = true := by
  intro m hm
  obtain ⟨id, -, hm⟩ := List.mem_flatMap.mp hm
  unfold touchedMark at hm
  split at hm
  · cases hm
  · rw [List.mem_singleton.mp hm]
    rfl

/-- **Each call keeps the memo in step.** -/
theorem Filed.step {category : String} {offset : Option Nat} (i : Input P S) (hrow : i.OfRow category offset)
    (h : Filed (rowMarket rd category offset) hist (fun k => lastServed hist k = some true) p) :
    Filed (rowMarket rd category offset) (hist ++ marks rd p i) (fun k => lastServed (hist ++ marks rd p i) k = some true)
      (stepWith rd p i).1 := by
  cases i with
  | datagram cx d =>
    obtain ⟨rfl, rfl⟩ := hrow
    have hfiled : Filed (Run.marketOf rd cx) _ _ (onDatagram rd cx p d).proc := onDatagram_inStep h d
    have htouched := hfiled.append (served_silent cx d.header.channelId (applied rd cx p d))
    have hkept : ∀ k, lastServed (hist ++ marks rd p (.datagram cx d)) k =
        lastServed (hist ++ (applied rd cx p d).served cx d.header.channelId) k := by
      intro k
      have hquiet : lastServed ((hist ++ evictions cx d.header p) ++ (onDatagram rd cx p d).out.map .out) k =
          lastServed hist k := by
        rw [lastServed_ignores outs_touched, lastServed_ignores (evictions_touched cx d.header p)]
      unfold marks
      rw [← List.append_assoc, ← List.append_assoc, lastServed_append, hquiet, ← lastServed_append]
    unfold Run.marks at htouched
    unfold marks at hkept ⊢
    simp only [List.append_assoc] at htouched hkept ⊢
    refine htouched.mono fun k hk => ?_
    rw [hkept]
    exact hk
  | tick cx order =>
    obtain ⟨rfl, rfl⟩ := hrow
    have hsilent : Silent (⟨p, []⟩ : Run P S) (onTick rd cx order p) := onTick_silent order p
    have hfiled : Filed (Run.marketOf rd cx) _ _ (onTick rd cx order p).proc := (h.start rfl rfl).quiet hsilent
    refine hfiled.mono fun k hk => ?_
    unfold marks
    rw [lastServed_ignores outs_touched]
    exact hk

variable {category : String} {offset : Option Nat}

theorem filed_run (rd : Render P S) (is : List (Input P S)) (hrow : ∀ i ∈ is, i.OfRow category offset) :
    Filed (rowMarket rd category offset) (history rd is) (fun k => lastServed (history rd is) k = some true) (after rd is) := by
  have hnew : Filed (rowMarket rd category offset) ([] : List (Mark P S))
      (fun k => lastServed ([] : List (Mark P S)) k = some true) .new :=
    { named := fun _ _ _ hm => by cases hm
      standing := fun _ _ hs => absurd hs Upheld.not_stands_nil
      placed := fun _ _ hs => absurd hs Upheld.not_stands_nil
      revealed := fun _ _ hk => by cases hk
      healthy := fun _ _ hk => by cases hk }
  have hok : (observer rd).Along (fun _ i => i.OfRow category offset) .new is := Machine.along_of_forall is _ hrow
  rw [← observer_exec]
  refine Machine.along_history_rule (P := fun t p => Filed (rowMarket rd category offset) (t.flatMap Prod.snd)
    (fun k => lastServed (t.flatMap Prod.snd) k = some true) p) hnew (fun t p i hi h => ?_) is hok
  rw [List.flatMap_append, List.flatMap_singleton]
  exact h.step i hi

/-- **A healthy report that stands is a book that serves.**  Where a publisher's last report of a market, in a run of a
feed row, is that one of its books is healthy there, the book was revealed under the market then and has not released it
since, and the publisher was not evicted, the processor holds the book, it is revealed under the market, and it served
at the last datagram that touched it. -/
theorem healthy_report_stands (rd : Render P S) (is : List (Input P S)) (hrow : ∀ i ∈ is, i.OfRow category offset)
    (h : StandsHealthy (history rd is) key market) :
    ∃ b id, (after rd is).books.get key = some b ∧ (after rd is).revealed.get key = some id ∧
      rowMarket rd category offset key id = market ∧ lastServed (history rd is) key = some true := by
  have hfiled := filed_run rd is hrow
  obtain ⟨reported, hreported⟩ := hfiled.standing key market h
  obtain ⟨id, hid, hmarket⟩ := hfiled.placed key market h
  obtain ⟨b, hb⟩ := FinMap.mem_keys_iff.mp
    ((settled_run rd is).1.reported (FinMap.mem_keys_iff.mpr ⟨(reported, true), hreported⟩))
  exact ⟨b, id, hb, hid, hmarket, hfiled.healthy key reported hreported⟩

end Histories

/-! ## A book that serves, and one that moved -/

section Rows

/-- The last report of a market from a publisher. -/
def lastReport {P S : Type} (hist : List (Mark P S)) (publisher : IpAddr) (market : BookKey) : Option Bool :=
  latest (fun
    | .out (.setBookHealth k m healthy) => if k.publisher = publisher ∧ m = market then some healthy else none
    | _ => none) hist

def rowRender : Render Unit Unit := ⟨fun _ _ => (), fun _ _ => (), (), (), fun _ => ""⟩

def rowInput (sequence : Nat) (messages : List Message) : Input Unit Unit :=
  .datagram ⟨"c", 0, 1, .combined, 1, none, 0, false, [], fun _ _ => false⟩ ⟨⟨0, sequence, 0⟩, messages⟩

def definitionUnder (sourceId : Nat) : Message := .instrumentDefinition ⟨7, some sourceId, "S", 0, 0, 1, 1⟩

/-- A book is installed and quotes both sides. -/
def servedInput : Input Unit Unit :=
  rowInput 1 [.manifestSummary true 1 1, definitionUnder 1, .batchBoundary 1, .snapshotBegin ⟨7, 1, 0, 1, 0, 0⟩,
    .snapshotEnd ⟨7, 1, 1⟩, .levelUpdate ⟨7, 1, SIDE_BID, ACTION_NEW, 1, 5, 1, 0, none, 0⟩]

def servedKey : PriceBookKey := ⟨1, 0, 7⟩

def servedMarket : BookKey := rowMarket rowRender "c" none servedKey 1

/-- The report of a book that was just installed stands. -/
theorem healthy_report_stands_servedInput :
    StandsHealthy (history rowRender [servedInput]) servedKey servedMarket ∧
      ∃ b id, (after rowRender [servedInput]).books.get servedKey = some b ∧
        (after rowRender [servedInput]).revealed.get servedKey = some id ∧
        rowMarket rowRender "c" none servedKey id = servedMarket ∧
        lastServed (history rowRender [servedInput]) servedKey = some true := by
  have hsplit : history rowRender [servedInput] = (history rowRender [servedInput]).take 4 ++
      .out (.setBookHealth servedKey servedMarket true) :: [.touched servedKey true] := by decide +kernel
  have hannounced : announced ((history rowRender [servedInput]).take 4) servedKey = some servedMarket := by
    decide +kernel
  have hstands : StandsHealthy (history rowRender [servedInput]) servedKey servedMarket :=
    ⟨_, _, _, hsplit, ⟨rfl, hannounced⟩, fun m hm => by rw [List.mem_singleton.mp hm]; exact id⟩
  refine ⟨hstands, healthy_report_stands rowRender [servedInput] (fun i hi => ?_) hstands⟩
  rw [List.mem_singleton.mp hi]
  exact ⟨rfl, rfl⟩

def movedInputs : List (Input Unit Unit) := [servedInput, rowInput 2 [definitionUnder 2]]

/-- A book that moves to another Source ID leaves a healthy report of the market it moved off. -/
theorem healthy_report_stands_movedInputs :
    ¬ ∀ (rd : Render Unit Unit) (category : String) (offset : Option Nat) (is : List (Input Unit Unit)),
      (∀ i ∈ is, i.OfRow category offset) → ∀ (publisher : IpAddr) (market : BookKey),
        lastReport (history rd is) publisher market = some true →
          ∃ key b id, key.publisher = publisher ∧ (after rd is).books.get key = some b ∧
            (after rd is).revealed.get key = some id ∧ rowMarket rd category offset key id = market ∧
            lastServed (history rd is) key = some true := by
  intro h
  have hrow : ∀ i ∈ movedInputs, i.OfRow "c" none := by
    intro i hi
    rcases List.mem_pair.mp hi with rfl | rfl
    · exact ⟨rfl, rfl⟩
    · exact ⟨rfl, rfl⟩
  have hreport : lastReport (history rowRender movedInputs) 1 servedMarket = some true := by decide +kernel
  obtain ⟨key, b, id, -, -, hid, hmarket, -⟩ := h rowRender "c" none movedInputs hrow 1 servedMarket hreport
  have hkeys : (after rowRender movedInputs).revealed.keys = {servedKey} := by decide +kernel
  have hmoved : (after rowRender movedInputs).revealed.get servedKey = some 2 := by decide +kernel
  have hkey : key = servedKey := by
    rw [← Finset.mem_singleton, ← hkeys]
    exact FinMap.mem_keys_iff.mpr ⟨id, hid⟩
  rw [hkey, hmoved] at hid
  rw [hkey, ← Option.some.inj hid] at hmarket
  exact absurd hmarket (by decide)

end Rows

end EdgeConnect.Mbp
