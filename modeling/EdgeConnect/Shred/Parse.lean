import EdgeConnect.Lib.HashTree

/-!
# The shred parser (`src/shred/parse.rs`)

Executable model of `parse`: the fields the forwarder needs of a datagram, and the merkle root its leader
signed.  `sha256` is a parameter: nothing here depends on which function it is.

* `index`, `slice` — accesses that panic past the end; `get` — those that answer `None`;
* `parse`, `merkleRoot`, `erasureShardIndex` — as the source has them, lengths and offsets in bytes.
-/

set_option autoImplicit false

namespace EdgeConnect.Shred

abbrev Bytes := List UInt8

/-- A SHA-256 digest. -/
abbrev Digest := Vector UInt8 32

def SIZE_OF_SIGNATURE : Nat := 64
def OFFSET_OF_VARIANT : Nat := 64
def OFFSET_OF_SLOT : Nat := 65
def OFFSET_OF_INDEX : Nat := 73
def OFFSET_OF_FEC_SET_INDEX : Nat := 79
def SIZE_OF_COMMON_HEADER : Nat := 83
def OFFSET_OF_NUM_DATA_SHREDS : Nat := SIZE_OF_COMMON_HEADER
def OFFSET_OF_CODING_POSITION : Nat := SIZE_OF_COMMON_HEADER + 4
def SIZE_OF_MERKLE_PROOF_ENTRY : Nat := 20

/-- The bytes of an ASCII text. -/
def ascii (s : String) : Bytes := s.toList.map fun c => UInt8.ofNat c.toNat

def MERKLE_PREFIX_LEAF : Bytes := 0x00 :: ascii "SOLANA_MERKLE_SHREDS_LEAF"
def MERKLE_PREFIX_NODE : Bytes := 0x01 :: ascii "SOLANA_MERKLE_SHREDS_NODE"

inductive ShredType where
  | data
  | code
  deriving DecidableEq, Repr

/-- The decoded fields needed downstream. -/
structure ShredMeta where
  slot : Nat
  index : Nat
  shredType : ShredType
  signature : Bytes
  signedMessage : Bytes
  resigned : Bool
  deriving DecidableEq, Repr

/-- A parsed `shred_variant` byte. -/
inductive Variant where
  | legacy (ty : ShredType)
  | merkle (ty : ShredType) (proofSize : Nat) (resigned : Bool)
  deriving DecidableEq, Repr

/-! ## Accesses -/

/-- An access past the end of a slice. -/
inductive Panic where
  | outOfBounds
  deriving DecidableEq, Repr

/-- `pkt[i]`. -/
def index (pkt : Bytes) (i : Nat) : Except Panic UInt8 :=
  match pkt[i]? with
  | some b => .ok b
  | none => .error .outOfBounds

/-- `pkt.get(lo..hi)`. -/
def get (pkt : Bytes) (lo hi : Nat) : Option Bytes :=
  if lo ≤ hi ∧ hi ≤ pkt.length then some ((pkt.drop lo).take (hi - lo)) else none

/-- `&pkt[lo..hi]`. -/
def slice (pkt : Bytes) (lo hi : Nat) : Except Panic Bytes :=
  match get pkt lo hi with
  | some bytes => .ok bytes
  | none => .error .outOfBounds

/-- `read_array`: `n` bytes at `off`. -/
def readArray (n : Nat) (pkt : Bytes) (off : Nat) : Option Bytes := get pkt off (off + n)

/-- `from_le_bytes`. -/
def fromLeBytes (bytes : Bytes) : Nat := bytes.foldr (fun b n => b.toNat + 256 * n) 0

/-! ## The parser -/

/-- `parse_variant`. -/
def parseVariant (b : UInt8) : Option Variant :=
  if b = 0x5a then some (.legacy .code)
  else if b = 0xa5 then some (.legacy .data)
  else
    let proofSize := (b &&& 0x0f).toNat
    match b &&& 0xf0 with
    | 0x40 | 0x60 => some (.merkle .code proofSize false)
    | 0x70 => some (.merkle .code proofSize true)
    | 0x80 | 0x90 => some (.merkle .data proofSize false)
    | 0xb0 => some (.merkle .data proofSize true)
    | _ => none

/-- `erasure_shard_index`: the leaf a shred is placed at, data shreds first. -/
def erasureShardIndex (pkt : Bytes) (ty : ShredType) (index : Nat) : Option Nat :=
  match ty with
  | .data => do
    let fecSetIndex ← readArray 4 pkt OFFSET_OF_FEC_SET_INDEX
    if fromLeBytes fecSetIndex ≤ index then some (index - fromLeBytes fecSetIndex) else none
  | .code => do
    let numData ← readArray 2 pkt OFFSET_OF_NUM_DATA_SHREDS
    let position ← readArray 2 pkt OFFSET_OF_CODING_POSITION
    some (fromLeBytes numData + fromLeBytes position)

section

variable (sha256 : Bytes → Digest)

/-- `hashv`. -/
def hashv (parts : List Bytes) : Digest := sha256 parts.flatten

/-- The loop of `merkle_root` over the `n` proof entries from `off` on. -/
def foldProof (pkt : Bytes) : Nat → Nat → Digest → Nat → Option (Digest × Nat)
  | 0, _, node, idx => some (node, idx)
  | n + 1, off, node, idx =>
    match get pkt off (off + SIZE_OF_MERKLE_PROOF_ENTRY) with
    | none => none
    | some sibling =>
      let short := node.toList.take SIZE_OF_MERKLE_PROOF_ENTRY
      let node := if idx % 2 = 0 then hashv sha256 [MERKLE_PREFIX_NODE, short, sibling]
        else hashv sha256 [MERKLE_PREFIX_NODE, sibling, short]
      foldProof pkt n (off + SIZE_OF_MERKLE_PROOF_ENTRY) node (idx >>> 1)

/-- `merkle_root`: the root the leader signed, `None` when the datagram is too short or the proof does not
collapse. -/
def merkleRoot (pkt : Bytes) (ty : ShredType) (proofSize : Nat) (resigned : Bool) (index : Nat) :
    Option Digest := do
  let resign := if resigned then SIZE_OF_SIGNATURE else 0
  let proofBytes := proofSize * SIZE_OF_MERKLE_PROOF_ENTRY
  let proofOffset ← if proofBytes + resign ≤ pkt.length then some (pkt.length - (proofBytes + resign)) else none
  if pkt.length < proofOffset + proofBytes then none
  let leafChunk ← get pkt SIZE_OF_SIGNATURE proofOffset
  let idx ← erasureShardIndex pkt ty index
  let (node, idx) ← foldProof sha256 pkt proofSize proofOffset (hashv sha256 [MERKLE_PREFIX_LEAF, leafChunk]) idx
  if idx = 0 then some node else none

/-- `parse`: a datagram that is too short or no shred is `None`. -/
def parse (pkt : Bytes) : Except Panic (Option ShredMeta) := do
  if pkt.length < SIZE_OF_COMMON_HEADER then return none
  let b ← index pkt OFFSET_OF_VARIANT
  let some variant := parseVariant b | return none
  let some slot := readArray 8 pkt OFFSET_OF_SLOT | return none
  let some index := readArray 4 pkt OFFSET_OF_INDEX | return none
  let signature ← slice pkt 0 SIZE_OF_SIGNATURE
  match variant with
  | .legacy ty =>
    let some signed := get pkt SIZE_OF_SIGNATURE pkt.length | return none
    return some ⟨fromLeBytes slot, fromLeBytes index, ty, signature, signed, false⟩
  | .merkle ty proofSize resigned =>
    let some root := merkleRoot sha256 pkt ty proofSize resigned (fromLeBytes index) | return none
    return some ⟨fromLeBytes slot, fromLeBytes index, ty, signature, root.toList, resigned⟩

end

end EdgeConnect.Shred
