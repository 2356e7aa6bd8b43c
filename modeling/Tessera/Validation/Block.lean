import Mathlib.Data.List.Sort
import Tessera.Tx.SigHash

/-!
# Blocks and consensus parameters

`primitives/block.h`, `consensus/params.h`, and what validation reads of a block index entry
(`chain.h`). A pointer to a `CBlockIndex` is the list of the block and its ancestors, the block
first; the null pointer is the empty list.
-/

namespace Tessera.Validation

open Tx

structure CBlockHeader where
  nVersion : Int
  hashPrevBlock : Uint256
  hashMerkleRoot : Uint256
  nTime : UInt32
  nBits : UInt32
  nNonce : UInt32
  deriving DecidableEq

namespace CBlockHeader

/-- The serialization of a header. -/
def serialize (h : CBlockHeader) : Bytes :=
  writeLE 4 (h.nVersion % 2 ^ 32).toNat ++ h.hashPrevBlock.data ++ h.hashMerkleRoot.data ++
    serializeUInt32 h.nTime ++ serializeUInt32 h.nBits ++ serializeUInt32 h.nNonce

variable (P : Primitives)

def getHash (h : CBlockHeader) : Uint256 := hash P h.serialize

def getPoWHash (h : CBlockHeader) : Uint256 := hash P (h.getHash P).data

end CBlockHeader

structure CBlock where
  header : CBlockHeader
  vtx : List CTransaction
  deriving DecidableEq

namespace CBlock

/-- The serialization of a block, with or without witnesses. -/
def serialize (allowWitness : Bool) (block : CBlock) : Bytes :=
  block.header.serialize ++ serializeVector (CTransaction.serialize allowWitness) block.vtx

def getHash (P : Primitives) (block : CBlock) : Uint256 := block.header.getHash P

end CBlock

/-! ### Consensus parameters -/

/-- `Consensus::Params`. A deployment is active from its height on. -/
structure Params where
  hashGenesisBlock : Uint256
  nSubsidyHalvingInterval : Nat
  bip34Height : Int
  bip34Hash : Uint256
  bip65Height : Int
  csvHeight : Int
  segwitHeight : Int
  powLimit : Nat

def maxBlockWeight : Nat := 32000000

def maxBlockSigOpsCost : Nat := 640000

def coinbaseMaturity : Int := 100

def witnessScaleFactor : Nat := 1

/-! ### Proof of work -/

/-- `arith_uint256::SetCompact`: the number, and whether it is negative or overflows. -/
def setCompact (nCompact : Nat) : Nat × Bool × Bool :=
  let nSize := nCompact / 2 ^ 24
  let nWord := nCompact % 2 ^ 23
  let nWord := if nSize ≤ 3 then nWord / 2 ^ (8 * (3 - nSize)) else nWord
  let value := if nSize ≤ 3 then nWord else nWord * 2 ^ (8 * (nSize - 3)) % 2 ^ 256
  (value, nWord != 0 && nCompact.testBit 23,
    nWord != 0 && (decide (34 < nSize) || (decide (0xff < nWord) && decide (33 < nSize)) ||
      (decide (0xffff < nWord) && decide (32 < nSize))))

def deriveTarget (nBits powLimit : Nat) : Option Nat :=
  let (bnTarget, fNegative, fOverflow) := setCompact nBits
  if fNegative || bnTarget == 0 || fOverflow || decide (powLimit < bnTarget) then none
  else some bnTarget

def checkProofOfWork (params : Params) (hash : Uint256) (nBits : UInt32) : Bool :=
  match deriveTarget nBits.toNat params.powLimit with
  | none => false
  | some bnTarget => decide (readLE hash.data ≤ bnTarget)

/-! ### Block index entries -/

/-- A pointer into the block index. -/
abbrev CBlockIndex := List CBlock

namespace CBlockIndex

def nHeight (pindex : CBlockIndex) : Int := pindex.length - 1

/-- `CBlockIndex::GetBlockHash`; the null hash for the null pointer. -/
def getBlockHash (P : Primitives) : CBlockIndex → Uint256
  | [] => .null 32
  | block :: _ => block.getHash P

variable (pindex : CBlockIndex)

def getAncestor (height : Int) : CBlockIndex :=
  if nHeight pindex < height ∨ height < 0 then []
  else pindex.drop (nHeight pindex - height).toNat

def getMedianTimePast : Nat :=
  let times := ((pindex.take 11).map fun block => block.header.nTime.toNat).insertionSort (· ≤ ·)
  times.getD (times.length / 2) 0

/-- `DeploymentActiveAt`, by the height of the deployment. -/
def deploymentActiveAt (height : Int) : Bool := decide (height ≤ nHeight pindex)

/-- `DeploymentActiveAfter`, by the height of the deployment. -/
def deploymentActiveAfter (pindexPrev : CBlockIndex) (height : Int) : Bool :=
  decide (height ≤ nHeight pindexPrev + 1)

end CBlockIndex

/-! ## Chain work

The work of a header (`GetBitsProof` of `chain.cpp`) and the limits on how fast the difficulty may
change (`PermittedDifficultyTransition` of `pow.cpp`). An `arith_uint256` is a number below
`2 ^ 256`.
-/

structure PowParams where
  powLimit : Nat
  fPowAllowMinDifficultyBlocks : Bool
  nPowTargetSpacing : Nat
  nPowTargetTimespan : Nat
  spacing_pos : 0 < nPowTargetSpacing
  spacing_le : nPowTargetSpacing ≤ nPowTargetTimespan

def PowParams.difficultyAdjustmentInterval (params : PowParams) : Nat :=
  params.nPowTargetTimespan / params.nPowTargetSpacing

def bits (n : Nat) : Nat := if n = 0 then 0 else n.log2 + 1

/-- `arith_uint256::GetCompact` of a number that is not negative. -/
def getCompact (n : Nat) : Nat :=
  let nSize := (bits n + 7) / 8
  let nCompact := if nSize ≤ 3 then n * 2 ^ (8 * (3 - nSize)) else n / 2 ^ (8 * (nSize - 3))
  -- the sign bit has to stay clear
  if nCompact.testBit 23 then nCompact / 256 + (nSize + 1) * 2 ^ 24 else nCompact + nSize * 2 ^ 24

/-- The value of a compact number, whatever its sign and overflow flags say. -/
def compactValue (nCompact : Nat) : Nat := (setCompact nCompact).1

def getBitsProof (bits : UInt32) : Nat :=
  let (bnTarget, fNegative, fOverflow) := setCompact bits.toNat
  if fNegative || fOverflow || bnTarget == 0 then 0
  else (2 ^ 256 - 1 - bnTarget) / (bnTarget + 1) + 1

/-- A target after a timespan, rounded as a header would have it. The timespan is multiplied as a
`uint32_t`. -/
def adjustedTarget (params : PowParams) (oldBits : UInt32) (timespan : Nat) : Nat :=
  let target := compactValue oldBits.toNat * (timespan % 2 ^ 32) % 2 ^ 256 /
    params.nPowTargetTimespan
  compactValue (getCompact (min target params.powLimit))

def permittedDifficultyTransition (params : PowParams) (height : Int)
    (oldBits newBits : UInt32) : Bool :=
  if params.fPowAllowMinDifficultyBlocks then true
  else if height % params.difficultyAdjustmentInterval = 0 then
    let observed := compactValue newBits.toNat
    decide (observed ≤ adjustedTarget params oldBits (params.nPowTargetTimespan * 4)) &&
      decide (adjustedTarget params oldBits (params.nPowTargetTimespan / 4) ≤ observed)
  else oldBits == newBits

def headersWork (headers : List CBlockHeader) : Nat :=
  (headers.map fun h => getBitsProof h.nBits).sum

@[simp] theorem headersWork_append (hs hs' : List CBlockHeader) :
    headersWork (hs ++ hs') = headersWork hs + headersWork hs' := by
  simp [headersWork]

@[simp] theorem headersWork_singleton (h : CBlockHeader) : headersWork [h] =
    getBitsProof h.nBits := by
  simp [headersWork]

theorem headersWork_le_of_prefix {hs hs' : List CBlockHeader} (h : hs <+: hs') :
    headersWork hs ≤ headersWork hs' := by
  obtain ⟨rest, rfl⟩ := h
  simp

end Tessera.Validation
