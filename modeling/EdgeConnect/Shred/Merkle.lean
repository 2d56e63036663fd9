import EdgeConnect.Shred.Parse

/-!
# Merkle shreds parse to their tree's root, and only they do

* `parse_eq` — what `parse` answers, access by access: it never panics;
* `foldProof_eq`, `merkleRoot_eq` — the proof loop climbs the hash tree;
* `merkle_shreds_parse_to_their_root` — every shred of a tree parses to its root; whatever else does
  collides with one of its strings on 20 bytes.
-/

set_option autoImplicit false

namespace EdgeConnect.Shred

open HashTree

/-! ## Accesses -/

theorem get_eq_some {pkt : Bytes} {lo hi : Nat} (h : lo ≤ hi) (h' : hi ≤ pkt.length) :
    get pkt lo hi = some ((pkt.drop lo).take (hi - lo)) := if_pos ⟨h, h'⟩

theorem readArray_eq_some {pkt : Bytes} {n off : Nat} (h : off + n ≤ pkt.length) :
    readArray n pkt off = some ((pkt.drop off).take n) := by
  unfold readArray
  rw [get_eq_some (Nat.le_add_right off n) h, Nat.add_sub_cancel_left]

theorem index_eq_ok {pkt : Bytes} {i : Nat} {b : UInt8} (h : pkt[i]? = some b) : index pkt i = .ok b := by
  unfold index
  rw [h]

theorem slice_eq_ok {pkt : Bytes} {lo hi : Nat} (h : lo ≤ hi) (h' : hi ≤ pkt.length) :
    slice pkt lo hi = .ok ((pkt.drop lo).take (hi - lo)) := by
  unfold slice
  rw [get_eq_some h h']

/-! ## What `parse` answers -/

/-- The header's index of a datagram. -/
def headerIndex (pkt : Bytes) : Nat := fromLeBytes ((pkt.drop OFFSET_OF_INDEX).take 4)

/-- The fields of a datagram long enough to have them, once its signed message is known. -/
def metaOf (pkt : Bytes) (ty : ShredType) (resigned : Bool) (signed : Bytes) : ShredMeta where
  slot := fromLeBytes ((pkt.drop OFFSET_OF_SLOT).take 8)
  index := headerIndex pkt
  shredType := ty
  signature := pkt.take SIZE_OF_SIGNATURE
  signedMessage := signed
  resigned := resigned

variable {sha256 : Bytes → Digest} {pkt : Bytes}

theorem parse_short (h : pkt.length < SIZE_OF_COMMON_HEADER) : parse sha256 pkt = .ok none := by
  unfold parse
  rw [if_pos h]
  rfl

/-- **Access by access.** -/
theorem parse_eq (sha256 : Bytes → Digest) (h : SIZE_OF_COMMON_HEADER ≤ pkt.length) : ∃ b, pkt[OFFSET_OF_VARIANT]? = some b ∧
    parse sha256 pkt = .ok
      (match parseVariant b with
      | none => none
      | some (.legacy ty) => some (metaOf pkt ty false (pkt.drop SIZE_OF_SIGNATURE))
      | some (.merkle ty proofSize resigned) =>
        (merkleRoot sha256 pkt ty proofSize resigned (headerIndex pkt)).map fun root =>
          metaOf pkt ty resigned root.toList) := by
  have hlen : 83 ≤ pkt.length := h
  have hb : OFFSET_OF_VARIANT < pkt.length := Nat.lt_of_lt_of_le (by decide) hlen
  refine ⟨pkt[OFFSET_OF_VARIANT], List.getElem?_eq_getElem hb, ?_⟩
  have hslot : readArray 8 pkt OFFSET_OF_SLOT = some ((pkt.drop OFFSET_OF_SLOT).take 8) :=
    readArray_eq_some (Nat.le_trans (by decide) hlen)
  have hindex : readArray 4 pkt OFFSET_OF_INDEX = some ((pkt.drop OFFSET_OF_INDEX).take 4) :=
    readArray_eq_some (Nat.le_trans (by decide) hlen)
  have hsig : slice pkt 0 SIZE_OF_SIGNATURE = .ok (pkt.take SIZE_OF_SIGNATURE) :=
    slice_eq_ok (Nat.zero_le _) (Nat.le_trans (by decide) hlen)
  have hsigned : get pkt SIZE_OF_SIGNATURE pkt.length = some (pkt.drop SIZE_OF_SIGNATURE) := by
    rw [get_eq_some (Nat.le_trans (by decide) hlen) (Nat.le_refl _)]
    exact congrArg some (List.take_of_length_le (Nat.le_of_eq List.length_drop))
  unfold parse
  rw [if_neg (Nat.not_lt.mpr h), index_eq_ok (List.getElem?_eq_getElem hb)]
  simp only [bind, Except.bind]
  cases parseVariant pkt[OFFSET_OF_VARIANT] with
  | none => rfl
  | some variant =>
    simp only [hslot, hindex, hsig]
    cases variant with
    | legacy ty =>
      simp only [hsigned]
      rfl
    | merkle ty proofSize resigned =>
      have hindexed : fromLeBytes ((pkt.drop OFFSET_OF_INDEX).take 4) = headerIndex pkt := rfl
      simp only [hindexed]
      cases merkleRoot sha256 pkt ty proofSize resigned (headerIndex pkt) with
      | none => rfl
      | some root => rfl

/-! ## The strings of a shred tree -/

/-- A proof entry: a digest's first 20 bytes. -/
abbrev Entry := { e : Bytes // e.length = SIZE_OF_MERKLE_PROOF_ENTRY }

def truncate (digest : Digest) : Entry :=
  ⟨digest.toList.take SIZE_OF_MERKLE_PROOF_ENTRY, by simp [SIZE_OF_MERKLE_PROOF_ENTRY]⟩

/-- What a leaf hashes. -/
def leafString (chunk : Bytes) : Bytes := MERKLE_PREFIX_LEAF ++ chunk

/-- What a node hashes. -/
def nodeString (a b : Entry) : Bytes := MERKLE_PREFIX_NODE ++ (a.1 ++ b.1)

theorem nodeString_inj (a b a' b' : Entry) (h : nodeString a b = nodeString a' b') : a = a' ∧ b = b' := by
  obtain ⟨ha, hb⟩ := List.append_inj (List.append_cancel_left h) (a.2.trans a'.2.symm)
  exact ⟨Subtype.ext ha, Subtype.ext hb⟩

theorem leafString_ne_nodeString (chunk : Bytes) (a b : Entry) : leafString chunk ≠ nodeString a b := by
  intro h
  have hhead := (List.cons.inj h).1
  exact absurd hhead (by decide)

theorem leafString_inj {chunk chunk' : Bytes} (h : leafString chunk = leafString chunk') : chunk = chunk' :=
  List.append_cancel_left h

/-! ## The proof loop -/

/-- The entry at an offset, as far as the datagram has one. -/
def entryAt (pkt : Bytes) (off : Nat) : Entry :=
  ⟨((pkt.drop off).take SIZE_OF_MERKLE_PROOF_ENTRY).rightpad SIZE_OF_MERKLE_PROOF_ENTRY 0, by
    rw [List.length_rightpad, List.length_take]
    omega⟩

def entriesAt (pkt : Bytes) : Nat → Nat → List Entry
  | _, 0 => []
  | off, n + 1 => entryAt pkt off :: entriesAt pkt (off + SIZE_OF_MERKLE_PROOF_ENTRY) n

theorem get_entry {off : Nat} (h : off + SIZE_OF_MERKLE_PROOF_ENTRY ≤ pkt.length) :
    get pkt off (off + SIZE_OF_MERKLE_PROOF_ENTRY) = some (entryAt pkt off).1 := by
  have hlen : ((pkt.drop off).take SIZE_OF_MERKLE_PROOF_ENTRY).length = SIZE_OF_MERKLE_PROOF_ENTRY := by
    rw [List.length_take, List.length_drop]
    omega
  rw [get_eq_some (Nat.le_add_right _ _) h, Nat.add_sub_cancel_left]
  refine congrArg some ?_
  show _ = (pkt.drop off).take SIZE_OF_MERKLE_PROOF_ENTRY ++ List.replicate _ 0
  rw [hlen, Nat.sub_self]
  exact (List.append_nil _).symm

/-- One entry of the proof joins the node with its sibling. -/
theorem hashv_join (sha256 : Bytes → Digest) (idx : Nat) (s : Bytes) (e : Entry) :
    (if idx % 2 = 0 then hashv sha256 [MERKLE_PREFIX_NODE, (sha256 s).toList.take SIZE_OF_MERKLE_PROOF_ENTRY, e.1]
      else hashv sha256 [MERKLE_PREFIX_NODE, e.1, (sha256 s).toList.take SIZE_OF_MERKLE_PROOF_ENTRY]) =
      sha256 (joinAt sha256 truncate nodeString idx s e) := by
  unfold joinAt
  split
  · unfold hashv nodeString
    simp only [List.flatten_cons, List.flatten_nil, List.append_nil]
    rfl
  · unfold hashv nodeString
    simp only [List.flatten_cons, List.flatten_nil, List.append_nil]
    rfl

/-- **The proof loop climbs.** -/
theorem foldProof_eq (n : Nat) {off : Nat} (idx : Nat) (s : Bytes)
    (h : off + n * SIZE_OF_MERKLE_PROOF_ENTRY ≤ pkt.length) :
    foldProof sha256 pkt n off (sha256 s) idx =
      some (sha256 (climb sha256 truncate nodeString idx s (entriesAt pkt off n)), idx / 2 ^ n) := by
  induction n generalizing off idx s with
  | zero =>
    rw [Nat.pow_zero, Nat.div_one]
    rfl
  | succ n ih =>
    rw [Nat.succ_mul] at h
    unfold foldProof
    rw [get_entry (by omega)]
    simp only [hashv_join]
    rw [ih _ _ (by omega), Nat.shiftRight_eq_div_pow, Nat.pow_one, Nat.div_div_eq_div_mul, Nat.pow_succ, Nat.mul_comm 2]
    rfl

/-! ## The root of a datagram -/

/-- The bytes of a retransmitter signature. -/
def resignLen (resigned : Bool) : Nat := if resigned then SIZE_OF_SIGNATURE else 0

/-- Where the proof of a datagram starts. -/
def proofOffset (pkt : Bytes) (proofSize : Nat) (resigned : Bool) : Nat :=
  pkt.length - (proofSize * SIZE_OF_MERKLE_PROOF_ENTRY + resignLen resigned)

/-- The bytes from the signature up to the proof. -/
def leafChunk (pkt : Bytes) (proofSize : Nat) (resigned : Bool) : Bytes :=
  (pkt.drop SIZE_OF_SIGNATURE).take (proofOffset pkt proofSize resigned - SIZE_OF_SIGNATURE)

/-- The entries of a datagram's proof. -/
def proofOf (pkt : Bytes) (proofSize : Nat) (resigned : Bool) : List Entry :=
  entriesAt pkt (proofOffset pkt proofSize resigned) proofSize

/-- The proof lies behind the signature. -/
def HasProof (pkt : Bytes) (proofSize : Nat) (resigned : Bool) : Prop :=
  SIZE_OF_SIGNATURE + (proofSize * SIZE_OF_MERKLE_PROOF_ENTRY + resignLen resigned) ≤ pkt.length

variable {ty : ShredType} {proofSize : Nat} {resigned : Bool} {idx i : Nat}

theorem merkleRoot_eq (h : HasProof pkt proofSize resigned) (hidx : erasureShardIndex pkt ty i = some idx) :
    merkleRoot sha256 pkt ty proofSize resigned i =
      if idx / 2 ^ proofSize = 0 then
        some (sha256 (climb sha256 truncate nodeString idx (leafString (leafChunk pkt proofSize resigned))
          (proofOf pkt proofSize resigned)))
      else none := by
  unfold HasProof at h
  have hoff : SIZE_OF_SIGNATURE ≤ proofOffset pkt proofSize resigned := by
    unfold proofOffset
    omega
  have hoff' : proofOffset pkt proofSize resigned ≤ pkt.length := Nat.sub_le _ _
  have hproof : proofOffset pkt proofSize resigned + proofSize * SIZE_OF_MERKLE_PROOF_ENTRY ≤ pkt.length := by
    unfold proofOffset
    omega
  have hleaf : hashv sha256 [MERKLE_PREFIX_LEAF, leafChunk pkt proofSize resigned] =
      sha256 (leafString (leafChunk pkt proofSize resigned)) := by
    unfold hashv leafString
    simp only [List.flatten_cons, List.flatten_nil, List.append_nil]
  have hbytes : proofSize * SIZE_OF_MERKLE_PROOF_ENTRY + resignLen resigned ≤ pkt.length := by omega
  have hfold : foldProof sha256 pkt proofSize _ (sha256 (leafString (leafChunk pkt proofSize resigned))) idx = _ :=
    foldProof_eq proofSize idx _ hproof
  have hres : (if resigned then SIZE_OF_SIGNATURE else 0) = resignLen resigned := rfl
  have hstart : pkt.length - (proofSize * SIZE_OF_MERKLE_PROOF_ENTRY + resignLen resigned) =
    proofOffset pkt proofSize resigned := rfl
  simp only [merkleRoot, hres, if_pos hbytes, hstart, Nat.not_lt.mpr hproof, get_eq_some hoff hoff', hidx,
    Option.bind_eq_bind, Option.bind_some, if_false]
  show (foldProof sha256 pkt proofSize _ (hashv sha256 [MERKLE_PREFIX_LEAF, leafChunk pkt proofSize resigned])
    idx).bind _ = _
  rw [hleaf, hfold]
  rfl

/-- A root is computed from a proof the datagram has, at the index its header says. -/
theorem merkleRoot_some {root : Digest} (h : merkleRoot sha256 pkt ty proofSize resigned i = some root) :
    HasProof pkt proofSize resigned ∧ ∃ idx, erasureShardIndex pkt ty i = some idx := by
  have hres : (if resigned then SIZE_OF_SIGNATURE else 0) = resignLen resigned := rfl
  simp only [merkleRoot, hres, Option.bind_eq_bind] at h
  split at h
  · rw [Option.bind_some] at h
    split at h
    · cases h
    · obtain ⟨chunk, hchunk, h⟩ := Option.bind_eq_some_iff.mp h
      obtain ⟨idx, hidx, -⟩ := Option.bind_eq_some_iff.mp h
      refine ⟨?_, idx, hidx⟩
      unfold get at hchunk
      split at hchunk
      · rename_i hbytes _ hget
        unfold HasProof
        omega
      · cases hchunk
  · cases h

/-! ## Trees of shreds -/

/-- The levels of the tree over some leaf chunks. -/
def treeLevel (sha256 : Bytes → Digest) (chunks : List Bytes) (d : Nat) : List Bytes :=
  level sha256 truncate nodeString (chunks.map leafString) d

/-- A leaf's sibling path, as it stands in a datagram. -/
def siblingPath (sha256 : Bytes → Digest) (chunks : List Bytes) (i d : Nat) : List Entry :=
  siblings sha256 truncate nodeString (chunks.map leafString) i d

/-- The strings hashed to build a tree of depth `d`. -/
def HashedByTree (sha256 : Bytes → Digest) (chunks : List Bytes) (d : Nat) (x : Bytes) : Prop :=
  Hashed sha256 truncate nodeString (chunks.map leafString) d x

/-- The strings hashed to compute a datagram's root. -/
def hashedByParse (sha256 : Bytes → Digest) (pkt : Bytes) (proofSize : Nat) (resigned : Bool) (idx : Nat) :
    List Bytes :=
  trail sha256 truncate nodeString idx (leafString (leafChunk pkt proofSize resigned))
    (proofOf pkt proofSize resigned)

/-- The leaf a datagram's header places it at. -/
def headerLeaf (pkt : Bytes) (ty : ShredType) : Option Nat := erasureShardIndex pkt ty (headerIndex pkt)

theorem entryAt_append (pre : Bytes) (e : Entry) (rest : Bytes) : entryAt (pre ++ (e.1 ++ rest)) pre.length = e := by
  refine Subtype.ext ?_
  have htake : ((pre ++ (e.1 ++ rest)).drop pre.length).take SIZE_OF_MERKLE_PROOF_ENTRY = e.1 := by
    rw [List.drop_left, List.take_left' e.2]
  show _ ++ List.replicate (SIZE_OF_MERKLE_PROOF_ENTRY - _) 0 = e.1
  rw [htake, e.2, Nat.sub_self]
  exact List.append_nil _

theorem entriesAt_append (es : List Entry) (pre rest : Bytes) :
    entriesAt (pre ++ (es.flatMap Subtype.val ++ rest)) pre.length es.length = es := by
  induction es generalizing pre with
  | nil => rfl
  | cons e es ih =>
    have hsplit : pre ++ ((e :: es).flatMap Subtype.val ++ rest) =
        (pre ++ e.1) ++ (es.flatMap Subtype.val ++ rest) := by
      simp only [List.flatMap_cons, List.append_assoc]
    have hrest := ih (pre ++ e.1)
    rw [List.length_append, e.2] at hrest
    rw [List.length_cons, entriesAt, hsplit, hrest, List.append_assoc, entryAt_append]

theorem flatMap_entry_length (es : List Entry) :
    (es.flatMap Subtype.val).length = es.length * SIZE_OF_MERKLE_PROOF_ENTRY := by
  induction es with
  | nil => exact (Nat.zero_mul _).symm
  | cons e es ih => rw [List.flatMap_cons, List.length_append, e.2, ih, List.length_cons, Nat.succ_mul, Nat.add_comm]

/-- A datagram laid out as a shred: the leaf chunk, the proof, and a retransmitter signature when resigned. -/
structure LaidOut (pkt chunk : Bytes) (proof : List Entry) (resigned : Bool) : Prop where
  long : SIZE_OF_COMMON_HEADER ≤ pkt.length
  bytes : ∃ tail : Bytes, tail.length = resignLen resigned ∧
    pkt.drop SIZE_OF_SIGNATURE = chunk ++ (proof.flatMap Subtype.val ++ tail)

theorem LaidOut.read {chunk : Bytes} {proof : List Entry} (h : LaidOut pkt chunk proof resigned) :
    HasProof pkt proof.length resigned ∧ leafChunk pkt proof.length resigned = chunk ∧
      proofOf pkt proof.length resigned = proof := by
  obtain ⟨tail, htail, hbytes⟩ := h.bytes
  have hlong : 83 ≤ pkt.length := h.long
  have hlen := congrArg List.length hbytes
  rw [List.length_drop, List.length_append, List.length_append, flatMap_entry_length, htail] at hlen
  have hsig : SIZE_OF_SIGNATURE ≤ pkt.length := Nat.le_trans (by decide) hlong
  have hoff : proofOffset pkt proof.length resigned = SIZE_OF_SIGNATURE + chunk.length := by
    unfold proofOffset
    omega
  have hpkt : pkt = (pkt.take SIZE_OF_SIGNATURE ++ chunk) ++ (proof.flatMap Subtype.val ++ tail) := by
    rw [List.append_assoc, ← hbytes, List.take_append_drop]
  have hpre : (pkt.take SIZE_OF_SIGNATURE ++ chunk).length = SIZE_OF_SIGNATURE + chunk.length := by
    rw [List.length_append, List.length_take, Nat.min_eq_left hsig]
  refine ⟨?_, ?_, ?_⟩
  · unfold HasProof
    omega
  · unfold leafChunk
    rw [hoff, Nat.add_sub_cancel_left, hbytes, List.take_left]
  · have hentries := entriesAt_append proof (pkt.take SIZE_OF_SIGNATURE ++ chunk) tail
    rw [← hpkt, hpre, ← hoff] at hentries
    exact hentries

/-! ## The law -/

/-- A datagram with a merkle variant. -/
structure IsMerkle (pkt : Bytes) (ty : ShredType) (proofSize : Nat) (resigned : Bool) : Prop where
  long : SIZE_OF_COMMON_HEADER ≤ pkt.length
  variant : pkt[OFFSET_OF_VARIANT]?.bind parseVariant = some (.merkle ty proofSize resigned)

theorem IsMerkle.parse_eq (h : IsMerkle pkt ty proofSize resigned) :
    parse sha256 pkt = .ok ((merkleRoot sha256 pkt ty proofSize resigned (headerIndex pkt)).map fun root =>
      metaOf pkt ty resigned root.toList) := by
  obtain ⟨b, hb, hparse⟩ := Shred.parse_eq sha256 h.long
  have hvariant := h.variant
  rw [hb, Option.bind_some] at hvariant
  rw [hparse, hvariant]

/-- **Merkle shreds parse to their tree's root, and only they do.**  For every tree of shreds of depth `d`:
a datagram laid out as one of its leaves parses to the root; whatever parses to the root holds one of its
leaf chunks, or two distinct strings of the two computations agree on 20 bytes of their digests; no datagram
makes the parser panic; and a leaf index past the proof's depth gives none. -/
theorem merkle_shreds_parse_to_their_root (sha256 : Bytes → Digest) (chunks : List Bytes) (d : Nat) (root : Bytes)
    (htree : treeLevel sha256 chunks d = [root]) :
    (∀ pkt ty resigned i chunk, IsMerkle pkt ty d resigned → chunks[i]? = some chunk →
      headerLeaf pkt ty = some i → LaidOut pkt chunk (siblingPath sha256 chunks i d) resigned →
      ∃ m, parse sha256 pkt = .ok (some m) ∧ m.signedMessage = (sha256 root).toList) ∧
    (∀ pkt ty proofSize resigned m, IsMerkle pkt ty proofSize resigned → parse sha256 pkt = .ok (some m) →
      m.signedMessage = (sha256 root).toList →
      leafChunk pkt proofSize resigned ∈ chunks ∨
        ∃ idx x y, headerLeaf pkt ty = some idx ∧ HashedByTree sha256 chunks d x ∧
          y ∈ hashedByParse sha256 pkt proofSize resigned idx ∧ x ≠ y ∧
          (sha256 x).toList.take SIZE_OF_MERKLE_PROOF_ENTRY = (sha256 y).toList.take SIZE_OF_MERKLE_PROOF_ENTRY) ∧
    (∀ pkt, ∃ answer, parse sha256 pkt = .ok answer) ∧
    (∀ pkt ty proofSize resigned idx, IsMerkle pkt ty proofSize resigned → headerLeaf pkt ty = some idx →
      2 ^ proofSize ≤ idx → parse sha256 pkt = .ok none) := by
  refine ⟨?_, ?_, ?_, ?_⟩
  · intro pkt ty resigned i chunk hmerkle hchunk hleaf hlaid
    have hi : (chunks.map leafString)[i]? = some (leafString chunk) := by
      rw [List.getElem?_map, hchunk]
      rfl
    obtain ⟨hclimb, hdepth⟩ := climb_siblings d hi htree
    have hlen : (siblingPath sha256 chunks i d).length = d :=
      siblings_length (List.getElem?_eq_some_iff.mp hi).1 d
    obtain ⟨hproof, hbytes, hentries⟩ := hlaid.read
    rw [hlen] at hproof hbytes hentries
    refine ⟨metaOf pkt ty resigned (sha256 root).toList, ?_, rfl⟩
    rw [hmerkle.parse_eq, merkleRoot_eq hproof hleaf, if_pos hdepth, hbytes, hentries]
    exact congrArg (fun s => Except.ok (some (metaOf pkt ty resigned (sha256 s).toList))) hclimb
  · intro pkt ty proofSize resigned m hmerkle hparse hsigned
    rw [hmerkle.parse_eq] at hparse
    obtain ⟨digest, hdigest, rfl⟩ := Option.map_eq_some_iff.mp (Except.ok.inj hparse)
    obtain ⟨hproof, idx, hidx⟩ := merkleRoot_some hdigest
    rw [merkleRoot_eq hproof hidx] at hdigest
    split at hdigest
    · have hroot : digest = sha256 root := Vector.toList_inj.mp hsigned
      have hagree : sha256 root = sha256 _ := hroot.symm.trans (Option.some.inj hdigest).symm
      have hmem : root ∈ treeLevel sha256 chunks d := by
        rw [htree]
        exact List.mem_singleton_self root
      have hleaves : ∀ x ∈ chunks.map leafString, ∀ a b, x ≠ nodeString a b := by
        intro x hx a b
        obtain ⟨chunk, -, rfl⟩ := List.mem_map.mp hx
        exact leafString_ne_nodeString chunk a b
      rcases leaf_of_climb nodeString_inj hleaves (leafString_ne_nodeString _) idx _ (Nat.le_refl d) hmem
        (congrArg truncate hagree) with hleaf | ⟨x, y, hx, hy, hne, hxy⟩
      · obtain ⟨chunk, hchunk, heq⟩ := List.mem_map.mp hleaf
        left
        rw [← leafString_inj heq]
        exact hchunk
      · exact Or.inr ⟨idx, x, y, hidx, hx, hy, hne, congrArg Subtype.val hxy⟩
    · cases hdigest
  · intro pkt
    by_cases hlen : pkt.length < SIZE_OF_COMMON_HEADER
    · exact ⟨_, parse_short hlen⟩
    · obtain ⟨b, -, hparse⟩ := Shred.parse_eq sha256 (Nat.le_of_not_lt hlen)
      exact ⟨_, hparse⟩
  · intro pkt ty proofSize resigned idx hmerkle hidx hdeep
    have hne : idx / 2 ^ proofSize ≠ 0 := by
      have hpos : 0 < idx / 2 ^ proofSize := Nat.div_pos hdeep (Nat.two_pow_pos proofSize)
      omega
    rw [hmerkle.parse_eq]
    cases hroot : merkleRoot sha256 pkt ty proofSize resigned (headerIndex pkt) with
    | none => rfl
    | some digest =>
      obtain ⟨hproof, -⟩ := merkleRoot_some hroot
      rw [merkleRoot_eq hproof hidx, if_neg hne] at hroot
      cases hroot

/-- A stand-in digest: the length of what was hashed, and its last byte. -/
def sampleHash (s : Bytes) : Digest := Vector.replicate 31 (UInt8.ofNat s.length) |>.push (s.getLastD 0)

/-- A chunk of a data shred with one proof entry, at index 0 of its set. -/
def firstChunk : Bytes := 0x81 :: List.replicate 18 0

def twoChunks : List Bytes := [firstChunk, [7]]

def firstShred : Bytes :=
  List.replicate 64 0 ++ (firstChunk ++ (siblingPath sampleHash twoChunks 0 1).flatMap Subtype.val)

theorem merkle_shreds_parse_to_their_root_firstShred : ∃ root m, treeLevel sampleHash twoChunks 1 = [root] ∧
    parse sampleHash firstShred = .ok (some m) ∧ m.signedMessage = (sampleHash root).toList := by
  obtain ⟨m, hparse, hsigned⟩ := (merkle_shreds_parse_to_their_root sampleHash twoChunks 1 _ rfl).1 firstShred .data
    false 0 firstChunk ⟨by decide, by decide⟩ rfl (by decide) ⟨by decide, [], rfl, by decide⟩
  exact ⟨_, m, rfl, hparse, hsigned⟩

end EdgeConnect.Shred
