import Tessera.Lib.Merkle
import Tessera.Validation.TxCheck

/-!
# Checking blocks

`CheckBlock` and `ContextualCheckBlock` of `validation.cpp`, with the merkle roots of
`consensus/merkle.cpp` and the witness commitment of `consensus/validation.h`. The flags in which a
block object remembers that it has passed a check are left out: they only save work.
-/

namespace Tessera.Validation

open Lib Script Tx

/-- `BlockValidationResult`, the results that these checks report. -/
inductive BlockValidationResult where
  | consensus
  | invalidHeader
  | mutated
  deriving DecidableEq

/-! ### Merkle roots -/

section Roots

variable (P : Primitives)

def hashPair (left right : Uint256) : Uint256 := hash P (left.data ++ right.data)

/-- `ComputeMerkleRoot`: the root, and whether the leaves are a mutation. -/
def computeMerkleRoot (hashes : List Uint256) : Uint256 × Bool :=
  let root := Merkle.root (hashPair P) hashes
  (root.1.getD (.null 32), root.2)

def getWitnessHash (tx : CTransaction) : Uint256 :=
  if tx.hasWitness then hash P (tx.serialize true) else tx.getHash P

theorem serialize_true_of_not_hasWitness {tx : CTransaction} (h : tx.hasWitness = false) :
    tx.serialize true = tx.serialize false := by
  simp [CTransaction.serialize, h]

/-- The witness hash is the hash of the serialization with witnesses, also if there are none. -/
theorem getWitnessHash_eq (tx : CTransaction) : getWitnessHash P tx = hash P
    (tx.serialize true) := by
  unfold getWitnessHash
  split
  · rfl
  next h =>
    rw [serialize_true_of_not_hasWitness (Bool.not_eq_true _ ▸ h), CTransaction.getHash]

def blockMerkleRoot (block : CBlock) : Uint256 × Bool :=
  computeMerkleRoot P (block.vtx.map fun tx => tx.getHash P)

/-- `BlockWitnessMerkleRoot`, in which the coinbase counts as zero. -/
def blockWitnessMerkleRoot (block : CBlock) : Uint256 :=
  (computeMerkleRoot P (.null 32 :: block.vtx.tail.map (getWitnessHash P))).1

/-! ### Checks that do not depend on the chain -/

def checkBlockHeader (params : Params) (header : CBlockHeader) :
    Except (Failure BlockValidationResult) Unit :=
  rejectIf (!checkProofOfWork params (header.getPoWHash P) header.nBits) .invalidHeader "high-hash"
    "proof of work failed"

def checkMerkleRoot (block : CBlock) : Except (Failure BlockValidationResult) Unit := do
  let (merkleRoot, mutated) := blockMerkleRoot P block
  rejectIf (block.header.hashMerkleRoot != merkleRoot) .mutated "bad-txnmrklroot"
    "hashMerkleRoot mismatch"
  rejectIf mutated .mutated "bad-txns-duplicate" "duplicate transaction"

/-- A failed check of a transaction is a failure of the block that has it. -/
def asBlockFailure {α : Type} (debug : String → String) :
    Except (Failure TxValidationResult) α → Except (Failure BlockValidationResult) α
  | .ok a => .ok a
  | .error (.invalid _ reason message) => .error (.invalid .consensus reason (debug message))
  | .error .overflow => .error .overflow
  | .error (.fault what) => .error (.fault what)

/-- The loop of `CheckBlock` over the transactions. -/
def checkTransactions (fits : AmountRange) : List CTransaction →
    Except (Failure BlockValidationResult) Unit
  | [] => .ok ()
  | tx :: rest => do
    asBlockFailure
      (fun message => "Transaction check failed (tx hash " ++ toHex (tx.getHash P) ++
        ") " ++ message)
      (checkTransaction fits tx)
    checkTransactions fits rest

/-- `CheckBlock`, with the proof of work and the merkle root if the two flags say so. -/
def checkBlock (fits : AmountRange) (params : Params) (block : CBlock)
    (fCheckPOW fCheckMerkleRoot : Bool) : Except (Failure BlockValidationResult) Unit := do
  onlyIf fCheckPOW (checkBlockHeader P params block.header)
  onlyIf fCheckMerkleRoot (checkMerkleRoot P block)
  rejectIf (block.vtx.isEmpty || decide (maxBlockWeight < block.vtx.length * witnessScaleFactor) ||
    decide (maxBlockWeight < (block.serialize false).length * witnessScaleFactor)) .consensus
    "bad-blk-length" "size limits failed"
  rejectIf (!block.vtx.head?.any CTransaction.isCoinBase) .consensus "bad-cb-missing"
    "first tx is not coinbase"
  rejectIf (block.vtx.tail.any CTransaction.isCoinBase) .consensus "bad-cb-multiple"
    "more than one coinbase"
  checkTransactions P fits block.vtx
  rejectIf (decide (maxBlockSigOpsCost < (block.vtx.map getLegacySigOpCount).sum *
    witnessScaleFactor)) .consensus "bad-blk-sigops" "out-of-bounds SigOpCount"

/-! ### Checks that depend on the previous block -/

def isWitnessCommitment (txout : CTxOut) : Bool :=
  decide (38 ≤ txout.scriptPubKey.length) &&
    txout.scriptPubKey.take 6 == [0x6a, 0x24, 0xaa, 0x21, 0xa9, 0xed]

variable (block : CBlock)

/-- `GetWitnessCommitmentIndex`, with the output at the index: the last output of the coinbase that
is a commitment. -/
def getWitnessCommitment : Option CTxOut :=
  match block.vtx with
  | [] => none
  | tx :: _ => (tx.vout.filter isWitnessCommitment).getLast?

/-- The first input of the first transaction. -/
def coinbaseInput : Option CTxIn := block.vtx.head?.bind fun tx => tx.vin.head?

/-- The part of `CheckWitnessMalleation` for a block that commits to its witnesses. -/
def checkWitnessCommitment (commitment : CTxOut) : Except (Failure BlockValidationResult) Unit :=
  match coinbaseInput block with
  | none => .error (.fault "!block.vtx.empty() && !block.vtx[0]->vin.empty()")
  | some txin =>
    match txin.scriptWitness with
    | [nonce] => do
      rejectIf (nonce.length != 32) .mutated "bad-witness-nonce-size"
        "CheckWitnessMalleation : invalid witness reserved value size"
      let hashWitness := hash P ((blockWitnessMerkleRoot P block).data ++ nonce)
      rejectIf (hashWitness.data != (commitment.scriptPubKey.drop 6).take 32) .mutated
        "bad-witness-merkle-match" "CheckWitnessMalleation : witness merkle commitment mismatch"
    | _ =>
      .error (.invalid .mutated "bad-witness-nonce-size"
        "CheckWitnessMalleation : invalid witness reserved value size")

def checkWitnessMalleation (expectWitnessCommitment : Bool) :
    Except (Failure BlockValidationResult) Unit :=
  match if expectWitnessCommitment then getWitnessCommitment block else none with
  | some commitment => checkWitnessCommitment P block commitment
  | none =>
    rejectIf (block.vtx.any CTransaction.hasWitness) .mutated "unexpected-witness"
      "CheckWitnessMalleation : unexpected witness data found"

def getBlockWeight : Nat :=
  (block.serialize false).length * (witnessScaleFactor - 1) + (block.serialize true).length

/-- The push of a number with which a coinbase script starts (`CScript() << nHeight`). -/
def pushHeight (nHeight : Int) : CScript :=
  if nHeight = 0 then [0x00]
  else if nHeight = -1 ∨ (1 ≤ nHeight ∧ nHeight ≤ 16) then [UInt8.ofNat (nHeight + 0x50).toNat]
  else pushData (ScriptNum.serialize nHeight)

def contextualCheckBlock (params : Params) (block : CBlock) (pindexPrev : CBlockIndex) :
    Except (Failure BlockValidationResult) Unit := do
  let nHeight := pindexPrev.nHeight + 1
  let enforceMedianTimePast := pindexPrev.deploymentActiveAfter params.csvHeight
  assertThat (!enforceMedianTimePast || !pindexPrev.isEmpty) "pindexPrev != nullptr"
  let nLockTimeCutoff : Int :=
    if enforceMedianTimePast then pindexPrev.getMedianTimePast else block.header.nTime.toNat
  rejectIf (block.vtx.any fun tx => !isFinalTx tx nHeight nLockTimeCutoff) .consensus
    "bad-txns-nonfinal" "non-final transaction"
  onlyIf (pindexPrev.deploymentActiveAfter params.bip34Height)
    (rejectIf (!(coinbaseInput block).any fun txin => (pushHeight nHeight).isPrefixOf
      txin.scriptSig) .consensus "bad-cb-height" "block height mismatch in coinbase")
  checkWitnessMalleation P block (pindexPrev.deploymentActiveAfter params.segwitHeight)
  rejectIf (decide (maxBlockWeight < getBlockWeight block)) .consensus "bad-blk-weight"
    "ContextualCheckBlock : weight limit failed"

end Roots

end Tessera.Validation
