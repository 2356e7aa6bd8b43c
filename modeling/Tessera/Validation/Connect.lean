import Tessera.Coins.Undo
import Tessera.Validation.CheckBlock

/-!
# Connecting and disconnecting blocks

`ConnectBlock` and `DisconnectBlock` of `validation.cpp`: the effects of a block on the coins, and
their reversal with the undo record of the block. The scripts of the inputs are verified without the
caches of earlier results.
-/

namespace Tessera.Validation

open Coins Script Tx

variable (P : Primitives) (params : Params)

/-! ### Changing a view -/

/-- `CCoinsViewCache::SpendCoin` on what a view shows: whether the coin is there, the coin, and the
view without it. -/
def spendCoin (view : CCoinsView) (o : COutPoint) : (Bool × Coin) × CCoinsView :=
  match view.coins o with
  | some coin => ((true, coin), { view with coins := Function.update view.coins o none })
  | none => ((false, .null), view)

/-- `CCoinsViewCache::AddCoin` on what a view shows. -/
def addCoin {ρ : Type} (view : CCoinsView) (o : COutPoint) (coin : Coin)
    (possibleOverwrite : Bool) : Except (Failure ρ) CCoinsView :=
  if coin.isSpent then .error (.fault "!coin.IsSpent()")
  else if isUnspendable coin.out.scriptPubKey then .ok view
  else if !possibleOverwrite && haveCoin view o then
    .error (.fault "Attempted to overwrite an unspent coin (when possible_overwrite is false)")
  else .ok { view with coins := Function.update view.coins o (some coin) }

/-- The outpoint of an output of a transaction. -/
def outPoint (tx : CTransaction) (n : Nat) : COutPoint := ⟨tx.getHash P, UInt32.ofNat n⟩

/-- The loop of `AddCoins`, from an output on. -/
def addCoinsFrom {ρ : Type} (tx : CTransaction) (nHeight : Nat) :
    Nat → List CTxOut → CCoinsView → Except (Failure ρ) CCoinsView
  | _, [], view => .ok view
  | i, txout :: rest, view => do
    let view ← addCoin view (outPoint P tx i) ⟨txout, tx.isCoinBase, nHeight⟩ tx.isCoinBase
    addCoinsFrom tx nHeight (i + 1) rest view

variable {ρ : Type}

def addCoins (view : CCoinsView) (tx : CTransaction) (nHeight : Nat) :
    Except (Failure ρ) CCoinsView :=
  addCoinsFrom P tx nHeight 0 tx.vout view

/-- The loop of `UpdateCoins` that spends the inputs: the coins, and the view without them. -/
def spendInputs {ρ : Type} : List CTxIn → CCoinsView → Except (Failure ρ) (List Coin × CCoinsView)
  | [], view => .ok ([], view)
  | txin :: rest, view => do
    let spent := spendCoin view txin.prevout
    assertThat spent.1.1 "is_spent"
    let (coins, view) ← spendInputs rest spent.2
    return (spent.1.2 :: coins, view)

/-- The first half of `UpdateCoins`, which a coinbase skips. -/
def spendInputsOf (tx : CTransaction) (view : CCoinsView) : Except (Failure ρ)
    (List Coin × CCoinsView) :=
  if tx.isCoinBase then .ok ([], view) else spendInputs tx.vin view

/-- `UpdateCoins`: the undo record, and the view afterwards. -/
def updateCoins (tx : CTransaction) (view : CCoinsView) (nHeight : Nat) :
    Except (Failure ρ) (CTxUndo × CCoinsView) := do
  let (coins, view) ← spendInputsOf tx view
  let view ← addCoins P view tx nHeight
  return (⟨coins⟩, view)

/-! ### Scripts -/

def scriptErrorString : ScriptError → String
  | .unknownError | .assertion => "unknown error"
  | .evalFalse => "Script evaluated without error but finished with a false/empty top stack element"
  | .opReturn => "OP_RETURN was encountered"
  | .scriptNum => "Script number overflowed or is non-minimally encoded"
  | .scriptSize => "Script is too big"
  | .pushSize => "Push value size limit exceeded"
  | .opCount => "Operation limit exceeded"
  | .stackSize => "Stack size limit exceeded"
  | .sigCount => "Signature count negative or greater than pubkey count"
  | .pubkeyCount => "Pubkey count negative or limit exceeded"
  | .verify => "Script failed an OP_VERIFY operation"
  | .equalVerify => "Script failed an OP_EQUALVERIFY operation"
  | .checkMultiSigVerify => "Script failed an OP_CHECKMULTISIGVERIFY operation"
  | .checkSigVerify => "Script failed an OP_CHECKSIGVERIFY operation"
  | .numEqualVerify => "Script failed an OP_NUMEQUALVERIFY operation"
  | .badOpcode => "Opcode missing or not understood"
  | .disabledOpcode => "Attempted to use a disabled opcode"
  | .invalidStackOperation => "Operation not valid with the current stack size"
  | .invalidAltstackOperation => "Operation not valid with the current altstack size"
  | .unbalancedConditional => "Invalid OP_IF construction"
  | .negativeLocktime => "Negative locktime"
  | .unsatisfiedLocktime => "Locktime requirement not satisfied"
  | .minimalData => "Data push larger than necessary"
  | .sigPushOnly => "Only push operators allowed in signatures"
  | .sigNullDummy => "Dummy CHECKMULTISIG argument must be zero"
  | .cleanStack => "Stack size must be exactly one after execution"
  | .minimalIf => "OP_IF/NOTIF argument must be minimal"
  | .sigNullFail => "Signature must be zero for failed CHECK(MULTI)SIG operation"
  | .discourageUpgradableNops => "NOPx reserved for soft-fork upgrades"
  | .discourageUpgradableWitnessProgram => "Witness version reserved for soft-fork upgrades"
  | .witnessProgramWrongLength => "Witness program has incorrect length"
  | .witnessProgramWitnessEmpty => "Witness program was passed an empty witness"
  | .witnessProgramMismatch => "Witness program hash mismatch"
  | .witnessMalleated => "Witness requires empty scriptSig"
  | .witnessMalleatedP2SH => "Witness requires only-redeemscript scriptSig"
  | .witnessUnexpected => "Witness provided for non-witness script"
  | .opCodeSeparator => "Using OP_CODESEPARATOR in non-witness script"
  | .sigFindAndDelete => "Signature is found in scriptCode"

/-- `CScriptCheck::operator()` for an input, with the output that it spends. -/
def scriptCheck (flags : ScriptFlags) (tx : CTransaction) (i : Fin tx.vin.length) (spent : CTxOut) :
    Option (ScriptError × String) :=
  let txin := tx.vin.get i
  let input : TxInput := ⟨tx, i, spent.nValue, i.isLt⟩
  match ((verifyScript P flags (input.checker P) txin.scriptSig spent.scriptPubKey
      txin.scriptWitness).exec ()).1 with
  | .ok _ => none
  | .error e =>
    some (e, "input " ++ toString i.val ++ " of " ++ toHex (tx.getHash P) ++ " (wtxid " ++
      toHex (getWitnessHash P tx) ++ "), spending " ++ toHex txin.prevout.hash ++ ":" ++
      toString txin.prevout.n.toNat)

/-- `CheckInputScripts` when neither the script execution cache nor the signature cache has an
answer: the first input whose scripts fail. -/
def failingInput (flags : ScriptFlags) (tx : CTransaction) (view : CCoinsView) :
    Option (ScriptError × String) :=
  if tx.isCoinBase then none
  else
    (List.finRange tx.vin.length).findSome? fun i =>
      scriptCheck P flags tx i (accessCoin view (tx.vin.get i).prevout).out

theorem failingInput_eq_none {P : Primitives} {flags : ScriptFlags} {tx : CTransaction}
    {view : CCoinsView} : failingInput P flags tx view = none ↔ tx.isCoinBase = true ∨
      ∀ i : Fin tx.vin.length,
        scriptCheck P flags tx i (accessCoin view (tx.vin.get i).prevout).out = none := by
  cases h : tx.isCoinBase <;> simp [failingInput, h]

/-- A script that fails is a failure of the block. -/
def rejectScript : Option (ScriptError × String) → Except (Failure BlockValidationResult) Unit
  | none => .ok ()
  | some (e, debug) =>
    .error (.invalid .consensus ("block-script-verify-flag-failed (" ++ scriptErrorString e ++ ")")
      debug)

/-! ### Connecting a block -/

def getBlockSubsidy (nHeight : Nat) : CAmount :=
  let halvings := nHeight / params.nSubsidyHalvingInterval
  if 64 ≤ halvings then 0 else 50 * coin / 2 ^ halvings

/-- The hash that a hexadecimal literal of the source stands for. -/
def uint256Hex (digits : String) : Uint256 :=
  let value := digits.toList.foldl
    (fun n c => n * 16 + (if c.isDigit then c.toNat - 48 else c.toNat - 87)) 0
  ⟨writeLE 32 value, writeLE_length 32 value⟩

def isBIP30Repeat (pindex : CBlockIndex) : Bool :=
  (pindex.nHeight == 91842 && pindex.getBlockHash P ==
      uint256Hex "00000000000a4d0a398161ffc163c503763b1f4360639393e0e4c8e300e0caec") ||
    (pindex.nHeight == 91880 && pindex.getBlockHash P ==
      uint256Hex "00000000000743f190a18c5577a3c2d2a1f610ae9601ac046a38084ccb7cd721")

/-- Whether `ConnectBlock` looks for outputs that are there already. -/
def enforceBIP30 (pindex : CBlockIndex) : Bool :=
  let pindexBIP34height := CBlockIndex.getAncestor pindex.tail params.bip34Height
  (!isBIP30Repeat P pindex &&
      (pindexBIP34height.isEmpty || pindexBIP34height.getBlockHash P != params.bip34Hash)) ||
    decide (1983702 ≤ pindex.nHeight)

/-- An output of the block is there already. -/
def overwritesOutput (block : CBlock) (view : CCoinsView) : Bool :=
  block.vtx.any fun tx => (List.range tx.vout.length).any fun o => haveCoin view (outPoint P tx o)

/-- How a call of `ConnectBlock` checks scripts: not at all below the assumed valid block, and in
threads of their own if there are any, which the call waits for at its end. -/
structure ScriptMode where
  fScriptChecks : Bool
  threads : Bool

/-- Where the loop of `ConnectBlock` stands. -/
structure Connecting where
  view : CCoinsView
  nFees : CAmount
  nSigOpsCost : Nat
  vtxundo : List CTxUndo
  failed : Option (ScriptError × String)

def blockScriptFlags (pindex : CBlockIndex) : ScriptFlags :=
  getBlockScriptFlags (pindex.deploymentActiveAt params.bip65Height)
    (pindex.deploymentActiveAt params.csvHeight) (pindex.deploymentActiveAt params.segwitHeight)

variable (fits : AmountRange)

/-- The part of a round of the loop of `ConnectBlock` that only a transaction with inputs goes
through: its inputs, the sum of the fees, and the relative lock times. -/
def connectInputs (pindex : CBlockIndex) (tx : CTransaction) (s : Connecting) :
    Except (Failure BlockValidationResult) CAmount :=
  if tx.isCoinBase then .ok s.nFees
  else do
    let txfee ← asBlockFailure (· ++ " in transaction " ++ toHex (tx.getHash P))
      (checkTxInputs fits tx s.view pindex.nHeight)
    let nFees ← addAmount fits s.nFees txfee
    rejectIf (!moneyRange nFees) .consensus "bad-txns-accumulated-fee-outofrange"
      "accumulated fee in the block out of range"
    let prevheights := tx.vin.map fun txin => ((accessCoin s.view txin.prevout).nHeight : Int)
    rejectIf (!sequenceLocks tx (pindex.deploymentActiveAt params.csvHeight) prevheights pindex)
      .consensus
      "bad-txns-nonfinal" ("contains a non-BIP68-final transaction " ++ toHex (tx.getHash P))
    return nFees

variable (mode : ScriptMode)

/-- A round of the loop of `ConnectBlock`. A script that a thread finds to fail is reported at
the end of the call. -/
def connectTransaction (pindex : CBlockIndex) (first : Bool) (s : Connecting)
    (tx : CTransaction) : Except (Failure BlockValidationResult) Connecting := do
  let flags := blockScriptFlags params pindex
  let nFees ← connectInputs P params fits pindex tx s
  let nSigOpsCost := s.nSigOpsCost + getTransactionSigOpCost tx s.view flags
  rejectIf (decide (maxBlockSigOpsCost < nSigOpsCost)) .consensus "bad-blk-sigops" "too many sigops"
  let failed := if mode.fScriptChecks then failingInput P flags tx s.view else none
  onlyIf (!mode.threads) (rejectScript failed)
  let (txundo, view) ← updateCoins P tx s.view pindex.nHeight.toNat
  return { view := view, nFees := nFees, nSigOpsCost := nSigOpsCost
           vtxundo := if first then s.vtxundo else s.vtxundo ++ [txundo]
           failed := s.failed.or failed }

/-- The loop of `ConnectBlock` after the first transaction. -/
def connectRest (mode : ScriptMode) (pindex : CBlockIndex) :
    List CTransaction → Connecting → Except (Failure BlockValidationResult) Connecting
  | [], s => .ok s
  | tx :: rest, s => do
    let s ← connectTransaction P params fits mode pindex false s tx
    connectRest mode pindex rest s

def connectTransactions (pindex : CBlockIndex) (vtx : List CTransaction)
    (s : Connecting) : Except (Failure BlockValidationResult) Connecting :=
  match vtx with
  | [] => .ok s
  | tx :: rest => do
    let s ← connectTransaction P params fits mode pindex true s tx
    connectRest P params fits mode pindex rest s

/-- `ConnectBlock` after the checks of the block by itself, for a block that is not the genesis
block. A transaction that is invalid ends the loop, and its failure is that of the block. -/
def connectChecked (block : CBlock) (pprev : CBlockIndex) (view : CCoinsView) :
    Except (Failure BlockValidationResult) (CCoinsView × CBlockUndo) := do
  let pindex : CBlockIndex := block :: pprev
  assertThat (!pprev.isEmpty) "pindex->pprev"
  rejectIf (enforceBIP30 P params pindex && overwritesOutput P block view) .consensus
    "bad-txns-BIP30" "tried to overwrite transaction"
  let s ← connectTransactions P params fits mode pindex block.vtx ⟨view, 0, 0, [], none⟩
  let blockReward ← addAmount int64Range s.nFees (getBlockSubsidy params pindex.nHeight.toNat)
  let coinbaseValue ← getValueOut fits (block.vtx.headD ⟨[], [], 0, 0⟩)
  rejectIf (decide (blockReward < coinbaseValue)) .consensus "bad-cb-amount"
    ("coinbase pays too much (actual=" ++ toString coinbaseValue ++ " vs limit=" ++
      toString blockReward ++ ")")
  rejectScript s.failed
  return ({ s.view with hashBlock := block.getHash P }, ⟨s.vtxundo⟩)

/-- `ConnectBlock` for a block that is to become the tip: the view afterwards, and the undo record,
which the genesis block does not have. -/
def connectBlock (block : CBlock) (pprev : CBlockIndex) (view : CCoinsView) :
    Except (Failure BlockValidationResult) (CCoinsView × Option CBlockUndo) := do
  checkBlock P fits params block true true
  assertThat (pprev.getBlockHash P == view.hashBlock) "hashPrevBlock == view.GetBestBlock()"
  if block.getHash P = params.hashGenesisBlock then
    return ({ view with hashBlock := block.getHash P }, none)
  else
    let (view, blockundo) ← connectChecked P params fits mode block pprev view
    return (view, some blockundo)

/-! ### Disconnecting a block -/

inductive DisconnectResult where
  | ok
  | unclean
  | failed
  deriving DecidableEq

/-- The result for a view that is clean or not. -/
def DisconnectResult.ofClean (fClean : Bool) : DisconnectResult := if fClean then .ok else .unclean

def maxOutputsPerBlock : Nat := maxBlockWeight / (witnessScaleFactor * CTxOut.null.serialize.length)

def accessByTxid (view : CCoinsView) (txid : Txid) : Coin :=
  ((List.range maxOutputsPerBlock).findSome? fun n => view.coins ⟨txid, UInt32.ofNat n⟩).getD .null

/-- The coin that `ApplyTxInUndo` restores. An old record may lack the height, which another output
of the same transaction has then. -/
def undoCoin (undo : Coin) (view : CCoinsView) (out : COutPoint) : Option Coin :=
  if undo.nHeight = 0 then
    let alternate := accessByTxid view out.hash
    if alternate.isSpent then none
    else some { undo with nHeight := alternate.nHeight, fCoinBase := alternate.fCoinBase }
  else some undo

def applyTxInUndo (undo : Coin) (view : CCoinsView) (out : COutPoint) :
    Except (Failure BlockValidationResult) (DisconnectResult × CCoinsView) :=
  let fClean := !haveCoin view out
  match undoCoin undo view out with
  | none => .ok (.failed, view)
  | some coin => do
    let view ← addCoin view out coin (!fClean)
    return (.ofClean fClean, view)

/-- The loop of `DisconnectBlock` over the outputs of a transaction, from an output on. -/
def removeOutputsFrom (tx : CTransaction) (nHeight : Nat) (isBip30Exception : Bool) :
    Nat → List CTxOut → Bool → CCoinsView → Bool × CCoinsView
  | _, [], fClean, view => (fClean, view)
  | o, txout :: rest, fClean, view =>
    if isUnspendable txout.scriptPubKey then
      removeOutputsFrom tx nHeight isBip30Exception (o + 1) rest fClean view
    else
      let spent := spendCoin view (outPoint P tx o)
      let mismatch := !spent.1.1 || spent.1.2 != ⟨txout, tx.isCoinBase, nHeight⟩
      removeOutputsFrom tx nHeight isBip30Exception (o + 1) rest
        (fClean && (isBip30Exception || !mismatch)) spent.2

/-- The loop of `DisconnectBlock` over the inputs of a transaction, the last one first. -/
def restoreInputs : List (COutPoint × Coin) → Bool → CCoinsView →
    Except (Failure BlockValidationResult) (DisconnectResult × CCoinsView)
  | [], fClean, view => .ok (.ofClean fClean, view)
  | (out, undo) :: rest, fClean, view => do
    let (res, view) ← applyTxInUndo undo view out
    if res = .failed then return (.failed, view)
    else restoreInputs rest (fClean && decide (res ≠ .unclean)) view

/-- A round of the loop of `DisconnectBlock`; the coinbase has no record. -/
def disconnectTransaction (nHeight : Nat) (fEnforceBIP30 : Bool) (tx : CTransaction)
    (txundo : Option CTxUndo) (fClean : Bool) (view : CCoinsView) :
    Except (Failure BlockValidationResult) (DisconnectResult × CCoinsView) :=
  let removed := removeOutputsFrom P tx nHeight (tx.isCoinBase && !fEnforceBIP30) 0
    tx.vout fClean view
  match txundo with
  | none => .ok (.ofClean removed.1, removed.2)
  | some txundo =>
    if txundo.vprevout.length ≠ tx.vin.length then .ok (.failed, removed.2)
    else
      restoreInputs ((tx.vin.map CTxIn.prevout).zip txundo.vprevout).reverse removed.1 removed.2

/-- The loop of `DisconnectBlock` over transactions with their records, the last one first. -/
def disconnectTransactions (nHeight : Nat) (fEnforceBIP30 : Bool) :
    List (CTransaction × Option CTxUndo) → Bool → CCoinsView →
    Except (Failure BlockValidationResult) (DisconnectResult × CCoinsView)
  | [], fClean, view => .ok (.ofClean fClean, view)
  | (tx, txundo) :: rest, fClean, view => do
    let (res, view) ← disconnectTransaction P nHeight fEnforceBIP30 tx txundo fClean view
    if res = .failed then return (.failed, view)
    else disconnectTransactions nHeight fEnforceBIP30 rest (decide (res ≠ .unclean)) view

def isBIP30Unspendable (blockHash : Uint256) (blockHeight : Int) : Bool :=
  (blockHeight == 91722 && blockHash ==
      uint256Hex "00000000000271a2dc26e7667f8419f2e15416dc6955e5a6c6cdf3f2574dd08e") ||
    (blockHeight == 91812 && blockHash ==
      uint256Hex "00000000000af0aed4792b1acee3d966af36cf5def14935db8de83d6f9306f2f")

/-- `DisconnectBlock`, with what the undo file holds for the block. A view that it fails on is left
where the failure was found. -/
def disconnectBlock (block : CBlock) (pprev : CBlockIndex) (file : Option Bytes)
    (view : CCoinsView) : Except (Failure BlockValidationResult) (DisconnectResult × CCoinsView) :=
  let pindex : CBlockIndex := block :: pprev
  match file.bind (readBlockUndo P (pprev.getBlockHash P)) with
  | none => .ok (.failed, view)
  | some blockUndo =>
    if blockUndo.vtxundo.length + 1 ≠ block.vtx.length then .ok (.failed, view)
    else do
      let fEnforceBIP30 := !isBIP30Unspendable (pindex.getBlockHash P) pindex.nHeight
      let (res, view) ← disconnectTransactions P pindex.nHeight.toNat fEnforceBIP30
        (block.vtx.zip (none :: blockUndo.vtxundo.map some)).reverse true view
      if res = .failed then return (.failed, view)
      else return (res, { view with hashBlock := pprev.getBlockHash P })

end Tessera.Validation
