import Tessera.Tx.Transaction

/-!
# Signature hashes and the transaction signature checker

`SignatureHash` and `GenericTransactionSignatureChecker` of `script/interpreter.cpp`. The cached
midstate hashes of `PrecomputedTransactionData` are the values computed here (`Tx.Commitment`), so
the cache does not appear.
-/

namespace Tessera.Tx

open Script

def sigHashAll : Nat := 1

def sigHashNone : Nat := 2

def sigHashSingle : Nat := 3

/-- Whether a hash type has `SIGHASH_ANYONECANPAY` set. -/
def anyoneCanPay (nHashType : Nat) : Bool := nHashType.testBit 7

def hashMode (nHashType : Nat) : Nat := nHashType % 32

def uint256One : Uint256 := ⟨1 :: List.replicate 31 0, rfl⟩

variable (P : Primitives)

/-! ### Witness v0 -/

variable (tx : CTransaction)

def computePrevoutsHash : Uint256 :=
  hash P (tx.vin.flatMap fun txin => txin.prevout.serialize)

def computeSequencesHash : Uint256 :=
  hash P (tx.vin.flatMap fun txin => serializeUInt32 txin.nSequence)

def computeOutputsHash : Uint256 := hash P (tx.vout.flatMap CTxOut.serialize)

/-- The outputs a witness v0 signature commits to. -/
def hashOutputs (nIn nHashType : Nat) : Uint256 :=
  if hashMode nHashType ≠ sigHashSingle ∧ hashMode nHashType ≠ sigHashNone then
    computeOutputsHash P tx
  else if hashMode nHashType = sigHashSingle then
    match tx.vout[nIn]? with
    | some txout => hash P txout.serialize
    | none => .null 32
  else .null 32

variable (scriptCode : CScript)

/-- `SignatureHash` for `SigVersion::WITNESS_V0`. -/
def witnessSignatureHash (tx : CTransaction) (nIn : Nat) (txin : CTxIn)
    (nHashType : Nat) (amount : CAmount) : Uint256 :=
  let hashPrevouts := if anyoneCanPay nHashType then .null 32 else computePrevoutsHash P tx
  let hashSequence :=
    if anyoneCanPay nHashType ∨ hashMode nHashType = sigHashSingle ∨
        hashMode nHashType = sigHashNone then .null 32
    else computeSequencesHash P tx
  hash P (serializeUInt32 tx.version ++ hashPrevouts.data ++ hashSequence.data ++
    txin.prevout.serialize ++ serializeBytes scriptCode ++ serializeInt64 amount ++
    serializeUInt32 txin.nSequence ++ (hashOutputs P tx nIn nHashType).data ++
    serializeUInt32 tx.nLockTime ++ writeLE 4 nHashType)

/-! ### Legacy scripts -/

/-- The pieces of a script between its `OP_CODESEPARATOR`s, from the position `itBegin` on. The last
piece ends where the iterator stopped, which is before the end of a script that is cut short. -/
def scriptCodePieces (stop : Nat) : Bytes → List Instr → Bytes
  | itBegin, [] => itBegin.take (itBegin.length - stop)
  | itBegin, i :: rest =>
    if i.opcode = .codeSeparator then
      itBegin.take (itBegin.length - i.pc.length - 1) ++ scriptCodePieces stop i.pc rest
    else scriptCodePieces stop itBegin rest

def serializeScriptCode : Bytes :=
  let instrs := (parse scriptCode).1
  let stop := ((parse scriptCode).2.getD []).length
  let nCodeSeparators := instrs.countP fun i => i.opcode = .codeSeparator
  writeCompactSize (scriptCode.length - nCodeSeparators) ++ scriptCodePieces stop scriptCode instrs

/-- `CTransactionSignatureSerializer::SerializeInput` on the input at position `nInput`. -/
def serializeInput (nIn nHashType nInput : Nat) (txin : CTxIn) : Bytes :=
  txin.prevout.serialize ++
    (if nInput = nIn then serializeScriptCode scriptCode else serializeBytes []) ++
    (if nInput ≠ nIn ∧ (hashMode nHashType = sigHashSingle ∨ hashMode nHashType = sigHashNone) then
      writeLE 4 0
    else serializeUInt32 txin.nSequence)

/-- The inputs a legacy signature commits to. -/
def serializeInputs (tx : CTransaction) (nIn : Nat) (txin : CTxIn)
    (nHashType : Nat) : Bytes :=
  if anyoneCanPay nHashType then
    writeCompactSize 1 ++ serializeInput scriptCode nIn nHashType nIn txin
  else
    writeCompactSize tx.vin.length ++
      tx.vin.zipIdx.flatMap fun p => serializeInput scriptCode nIn nHashType p.2 p.1

/-- The outputs a legacy signature commits to. -/
def serializeOutputs (tx : CTransaction) (nIn nHashType : Nat) : Bytes :=
  if hashMode nHashType = sigHashNone then writeCompactSize 0
  else if hashMode nHashType = sigHashSingle then
    writeCompactSize (nIn + 1) ++ (tx.vout.take (nIn + 1)).zipIdx.flatMap fun p =>
        if p.2 = nIn then p.1.serialize else CTxOut.null.serialize
  else serializeVector CTxOut.serialize tx.vout

/-- `SignatureHash` for `SigVersion::BASE`. -/
def legacySignatureHash (scriptCode : CScript) (tx : CTransaction) (nIn : Nat) (txin : CTxIn)
    (nHashType : Nat) : Uint256 :=
  if hashMode nHashType = sigHashSingle ∧ tx.vout.length ≤ nIn then uint256One
  else
    hash P (serializeUInt32 tx.version ++ serializeInputs scriptCode tx nIn txin nHashType ++
      serializeOutputs tx nIn nHashType ++ serializeUInt32 tx.nLockTime ++ writeLE 4 nHashType)

/-- `SignatureHash`, for an input that the transaction has. -/
def signatureHash (scriptCode : CScript) (tx : CTransaction) (nIn : Nat) (txin : CTxIn)
    (nHashType : Nat) (amount : CAmount) : SigVersion → Uint256
  | .witnessV0 => witnessSignatureHash P scriptCode tx nIn txin nHashType amount
  | .base => legacySignatureHash P scriptCode tx nIn txin nHashType

/-! ### The checker -/

def lockTimeThreshold : Nat := 500000000

def sequenceLockTimeTypeFlag : Nat := 2 ^ 22

/-- The bits of a sequence number that a relative lock time reads. -/
def maskSequence (n : Nat) : Nat := n &&& (sequenceLockTimeTypeFlag ||| 0x0000ffff)

/-- A transaction with the input of it that is being checked and the amount that input spends. -/
structure TxInput where
  tx : CTransaction
  nIn : Nat
  amount : CAmount
  inRange : nIn < tx.vin.length

namespace TxInput

variable (t : TxInput)

/-- The input being checked. -/
def txin : CTxIn := t.tx.vin.get ⟨t.nIn, t.inRange⟩

/-- The hash that a signature for this input signs. -/
def sighash (scriptCode : CScript) (nHashType : Nat) (sv : SigVersion) : Uint256 :=
  signatureHash P scriptCode t.tx t.nIn t.txin nHashType t.amount sv

def checkSig (vchSig vchPubKey : Bytes) (scriptCode : CScript) (sv : SigVersion) : Bool :=
  match vchSig.getLast? with
  | none => false
  | some nHashType =>
    (CPubKey.set vchPubKey).isValid &&
      (CPubKey.set vchPubKey).verify P (t.sighash P scriptCode nHashType.toNat sv) vchSig.dropLast

def checkLockTime (nLockTime : Int) : Bool :=
  let txLockTime := t.tx.nLockTime.toNat
  (decide (txLockTime < lockTimeThreshold) == decide (nLockTime < lockTimeThreshold)) &&
    decide (nLockTime ≤ txLockTime) && t.txin.nSequence != CTxIn.sequenceFinal

/-- `GenericTransactionSignatureChecker::CheckSequence`, on an operand that is not negative. -/
def checkSequence (nSequence : Int) : Bool :=
  let txSequence := t.txin.nSequence.toNat
  let txMasked := maskSequence txSequence
  let masked := maskSequence nSequence.toNat
  decide (2 ≤ t.tx.version.toNat) && !txSequence.testBit 31 &&
    (decide (txMasked < sequenceLockTimeTypeFlag) == decide (masked < sequenceLockTimeTypeFlag)) &&
    decide (masked ≤ txMasked)

/-- `GenericTransactionSignatureChecker`, which has no state that a call changes. -/
def checker : Checker Unit where
  checkSig vchSig vchPubKey scriptCode sv s := (t.checkSig P vchSig vchPubKey scriptCode sv, s)
  checkLockTime := t.checkLockTime
  checkSequence := t.checkSequence

end TxInput

/-! ### What a signature does not cover -/

/-- An input without what a signer fills in. -/
def CTxIn.unsigned (txin : CTxIn) : CTxIn := { txin with scriptSig := [], scriptWitness := [] }

/-- A transaction without what signers fill in. -/
def CTransaction.unsigned (tx : CTransaction) : CTransaction :=
  { tx with vin := tx.vin.map CTxIn.unsigned }

namespace TxInput

variable {P}

/-- The input of the unsigned transaction. -/
def unsigned (t : TxInput) : TxInput :=
  { t with tx := t.tx.unsigned, inRange := by simpa [CTransaction.unsigned] using t.inRange }

private theorem unsigned_txin (t : TxInput) : t.unsigned.txin = t.txin.unsigned := by
  simp [unsigned, txin, CTransaction.unsigned]

theorem sighash_unsigned (t : TxInput) (scriptCode : CScript) (nHashType : Nat) (sv : SigVersion) :
    t.unsigned.sighash P scriptCode nHashType sv = t.sighash P scriptCode nHashType sv := by
  have hprevouts : computePrevoutsHash P t.unsigned.tx = computePrevoutsHash P t.tx := by
    simp [computePrevoutsHash, unsigned, CTransaction.unsigned, List.flatMap_map, CTxIn.unsigned]
  have hsequences : computeSequencesHash P t.unsigned.tx = computeSequencesHash P t.tx := by
    simp [computeSequencesHash, unsigned, CTransaction.unsigned, List.flatMap_map, CTxIn.unsigned]
  have hinputs : serializeInputs scriptCode t.unsigned.tx t.nIn t.txin.unsigned nHashType =
      serializeInputs scriptCode t.tx t.nIn t.txin nHashType := by
    simp only [serializeInputs, unsigned, CTransaction.unsigned, List.zipIdx_map, List.flatMap_map,
      List.length_map]
    rfl
  unfold sighash
  rw [unsigned_txin]
  cases sv with
  | witnessV0 =>
    simp only [signatureHash, witnessSignatureHash, hprevouts, hsequences]
    rfl
  | base =>
    change (if _ ∧ t.tx.vout.length ≤ t.nIn then _ else hash P (_ ++ serializeInputs scriptCode
      t.unsigned.tx t.nIn t.txin.unsigned nHashType ++ _ ++ _ ++ _)) = _
    rw [hinputs]
    rfl

/-- What the checker answers does not depend on what signers have filled in. -/
theorem checker_unsigned (t : TxInput) : t.unsigned.checker P = t.checker P := by
  unfold checker
  congr 1
  · funext sig pubkey scriptCode sv s
    simp [checkSig, sighash_unsigned]
  · funext n
    simp only [checkLockTime, unsigned_txin]
    rfl
  · funext n
    simp only [checkSequence, unsigned_txin]
    rfl

theorem checker_congr {t u : TxInput} (htx : t.tx.unsigned = u.tx.unsigned) (hn : t.nIn = u.nIn)
    (hamount : t.amount = u.amount) : t.checker P = u.checker P := by
  have heq : t.unsigned = u.unsigned := by
    simp only [unsigned, mk.injEq]
    exact ⟨htx, hn, hamount⟩
  rw [← checker_unsigned, heq, checker_unsigned]

end TxInput

end Tessera.Tx
