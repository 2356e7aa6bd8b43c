import Tessera.Wallet.SelectCoins
import Tessera.Wallet.SignTransaction

/-!
# The coins to choose from

`AvailableCoins` and `FetchSelectedInputs` of `wallet/spend.cpp`, with the size that an input is
taken to have once it is signed. Sizes are integers here, where the source keeps them in `int`.
-/

namespace Tessera.Wallet

open Policy Script Tx

/-! ### What the caller asks for -/

structure PreselectedInput where
  txout : Option CTxOut
  weight : Option Int
  sequence : Option UInt32
  scriptSig : Option CScript
  scriptWitness : Option CScriptWitness
  position : Option Nat

/-- `CCoinControl`. The keys of `m_selected` are distinct, as those of every map. -/
structure CCoinControl where
  destChange : CTxDestination
  includeUnsafeInputs : Bool
  allowOtherInputs : Bool
  feerate : Option CFeeRate
  signalBip125Rbf : Option Bool
  avoidPartialSpends : Bool
  avoidAddressReuse : Bool
  minDepth : Int
  maxDepth : Int
  version : UInt32
  locktime : Option UInt32
  maxTxWeight : Option Int
  selected : List (COutPoint × PreselectedInput)
  selectionPos : Nat
  distinct : (selected.map Prod.fst).Nodup

namespace CCoinControl

variable (cc : CCoinControl)

def hasSelected : Bool := !cc.selected.isEmpty

def listSelected : List COutPoint := cc.selected.map Prod.fst

variable (outpoint : COutPoint)

def isSelected : Bool := decide (outpoint ∈ cc.listSelected)

/-- What is known of a selected input. -/
def find : Option PreselectedInput := cc.selected.lookup outpoint

def getExternalOutput : Option CTxOut := (cc.find outpoint).bind PreselectedInput.txout

def getInputWeight : Option Int := (cc.find outpoint).bind PreselectedInput.weight

def getSequence : Option UInt32 := (cc.find outpoint).bind PreselectedInput.sequence

def getSelectionPos : Option Nat := (cc.find outpoint).bind PreselectedInput.position

end CCoinControl

/-! ### The wallet -/

/-- What the wallet knows of a transaction. -/
structure WalletTxView where
  version : UInt32
  depth : Int
  immatureCoinBase : Bool
  inMempool : Bool
  trusted : Bool
  replaces : Bool
  replacedBy : Bool
  trucChildInMempool : Bool
  time : Int
  fromMe : Bool

/-- `WalletTXO`, with what the wallet knows of the output. -/
structure WalletTxo where
  outpoint : COutPoint
  txout : CTxOut
  wtx : WalletTxView
  locked : Bool
  spent : Bool
  spentKey : Bool

/-- `FeeReason`, as far as it is asked for. -/
inductive FeeReason where
  | required
  | fallback
  | other
  deriving DecidableEq

/-- The wallet as the code that spends sees it. -/
structure SpendWallet where
  keys : KeyCore
  mapWallet : Txid → Option CTransaction
  txos : List WalletTxo
  chain : ChainInterface
  avoidReuse : Bool
  spendZeroConfChange : Bool
  signalRbf : Bool
  allowFallbackFee : Bool
  consolidateFeerate : CFeeRate
  discardRate : CFeeRate
  getMinimumFeeRate : CCoinControl → CFeeRate × FeeReason
  defaultMaxTxFee : Int
  maxApsFee : Int
  lastBlockHeight : Nat
  isCurrentForAntiFeeSniping : Bool

namespace SpendWallet

def getTXO (wallet : SpendWallet) (outpoint : COutPoint) : Option WalletTxo :=
  wallet.txos.find? fun txo => decide (txo.outpoint = outpoint)

/-- The scripts of `GetSolvingProvider`: of an output of the wallet's own, its script under its own
hash. -/
def getSolvingProvider (P : Primitives) (wallet : SpendWallet) (script : CScript) :
    Option (CScriptID → Option CScript) :=
  if wallet.keys.isMine script then some fun id => if id = hash160 P script then some script
  else none else none

end SpendWallet

/-! ### Sizes -/

def getSizeOfCompactSize (n : Nat) : Int :=
  if n < 253 then 1 else if n ≤ 0xffff then 3 else if n ≤ 0xffffffff then 5 else 9

def maxP2WPKHInputWeight : Int :=
  let sigSize := 2420 + 1
  let pubkeySize := 1 + 1312
  36 + 1 + 4 + (getSizeOfCompactSize 2 + getSizeOfCompactSize sigSize + sigSize +
    getSizeOfCompactSize pubkeySize + pubkeySize)

def signedInputWeight (coinControl : Option CCoinControl) (outpoint : COutPoint) : Int :=
  (coinControl.bind (·.getInputWeight outpoint)).getD maxP2WPKHInputWeight

/-- `GetVirtualTransactionSize` without signature operations. -/
def getVirtualTransactionSize (weight : Int) : Int := max weight 0

/-- `CalculateMaximumSignedInputSize` with an outpoint. -/
def calculateMaximumSignedInputSize (coinControl : Option CCoinControl)
    (outpoint : COutPoint) : Int :=
  getVirtualTransactionSize (signedInputWeight coinControl outpoint)

/-- The outpoint that `COutPoint()` builds. -/
def nullOutpoint : COutPoint := ⟨.null 32, COutPoint.nullIndex⟩

structure TxSize where
  vsize : Int
  weight : Int

def outputSize (txout : CTxOut) : Int := (txout.serialize.length : Int)

/-- `CalculateMaximumSignedTxSize` with the outputs that are spent. -/
def signedTxSizeOf (tx : CTransaction) (txouts : List CTxOut) (cc : CCoinControl) : TxSize :=
  let weight := 4 + 4 + getSizeOfCompactSize tx.vin.length + getSizeOfCompactSize tx.vout.length +
    (if txouts.isEmpty then 0 else 2) + (tx.vout.map outputSize).sum +
    (tx.vin.map fun txin => signedInputWeight (some cc) txin.prevout).sum
  ⟨getVirtualTransactionSize weight, weight⟩

/-- The outputs that the inputs spend: of the wallet, or given by the caller. -/
def spentOutputs (wallet : SpendWallet) (cc : CCoinControl) : List CTxIn → Except SelectionError
    (Option (List CTxOut))
  | [] => .ok (some [])
  | txin :: rest =>
    match wallet.mapWallet txin.prevout.hash with
    | some tx =>
      match tx.vout[txin.prevout.n.toNat]? with
      | none => .error .assertion
      | some txout => (spentOutputs wallet cc rest).map (·.map (txout :: ·))
    | none =>
      match cc.getExternalOutput txin.prevout with
      | none => .ok none
      | some txout => (spentOutputs wallet cc rest).map (·.map (txout :: ·))

def calculateMaximumSignedTxSize (wallet : SpendWallet) (cc : CCoinControl) (tx : CTransaction) :
    Except SelectionError TxSize :=
  (spentOutputs wallet cc tx.vin).map fun txouts =>
    match txouts with
    | none => ⟨-1, -1⟩
    | some txouts => signedTxSizeOf tx txouts cc

/-! ### Inputs chosen by hand -/

/-- Why no transaction was made: an error with its message, of which those that show an amount or an
outpoint keep it; an internal bug; or a selection that did not end. -/
inductive CreateError where
  | error (message : String)
  | unconfirmedVersion (parent version : UInt32)
  | notFound (outpoint : COutPoint)
  | notSolvable (outpoint : COutPoint)
  | feerateTooLow (feerate minimum : CFeeRate) (required : Bool)
  | exceedsBalance (fee : Int)
  | internalBug (message : String)
  | aborted (e : SelectionError)

/-- A result of the parts that fail only by ending the call. -/
def orAbort {α : Type} : Except SelectionError α → Except CreateError α
  | .ok a => .ok a
  | .error e => .error (.aborted e)

section Coins

variable (P : Primitives) (wallet : SpendWallet) (cc : CCoinControl) (feerate : CFeeRate)
  (outpoint : COutPoint)

/-- The output of a selected outpoint, and the size of its input if that is known by then. -/
def fetchOutput (inputBytes : Int) : Except CreateError (CTxOut × Int) :=
  match wallet.getTXO outpoint with
  | some txo =>
    let inputBytes := if inputBytes = -1 then calculateMaximumSignedInputSize (some cc) nullOutpoint
      else inputBytes
    if txo.wtx.depth = 0 ∧
        (txo.wtx.version = trucVersion ∧ cc.version ≠ trucVersion ∨
          cc.version = trucVersion ∧ txo.wtx.version ≠ trucVersion) then
      .error (.unconfirmedVersion txo.wtx.version cc.version)
    else .ok (txo.txout, inputBytes)
  | none =>
    match cc.getExternalOutput outpoint with
    | none => .error (.notFound outpoint)
    | some txout => .ok (txout, inputBytes)

/-- The size given for an input, or -1. -/
def presetInputBytes : Int :=
  let inputBytes := (cc.getInputWeight outpoint).getD (-1)
  if inputBytes ≠ -1 then getVirtualTransactionSize inputBytes else inputBytes

/-- The coin of a selected input, without its bump fee. -/
def presetCoin (fetched : CTxOut × Int) : Except CreateError COutput :=
  let inputBytes :=
    if fetched.2 = -1 then calculateMaximumSignedInputSize (some cc) outpoint else fetched.2
  if inputBytes = -1 then .error (.notSolvable outpoint)
  else .ok (COutput.new outpoint fetched.1 0 inputBytes true true 0 false feerate)

/-- One round of `FetchSelectedInputs`. -/
def fetchInput (bumpFees : COutPoint → Int) (result : CoinsResult) (outpoint : COutPoint) :
    Except CreateError CoinsResult := do
  let fetched ← fetchOutput wallet cc outpoint (presetInputBytes cc outpoint)
  let coin ← presetCoin cc feerate outpoint fetched
  let coin ← orAbort (coin.applyBumpFee (bumpFees outpoint))
  pure (result.add .unknown coin)

def fetchSelectedInputs : Except CreateError CoinsResult :=
  cc.listSelected.foldlM
    (fetchInput wallet cc feerate
      (wallet.chain.calculateIndividualBumpFees cc.listSelected feerate)) .empty

/-! ### The wallet's coins -/

/-- The checks of a transaction: whether it is safe, if its outputs are considered at all. -/
def txChecks (txid : Txid) (wtx : WalletTxView) : Option Bool :=
  let unconfirmed := decide (wtx.depth = 0)
  -- neither what replaces another transaction nor what was replaced is safe
  let safeTx := wtx.trusted && !(unconfirmed && (wtx.replaces || wtx.replacedBy))
  let trucMismatch := unconfirmed &&
    if cc.version = trucVersion then
      decide (wtx.version ≠ trucVersion) || wtx.trucChildInMempool ||
        decide (1 < (wallet.chain.getTransactionAncestry txid).1)
    else decide (wtx.version = trucVersion)
  if wtx.immatureCoinBase || decide (wtx.depth < 0) || (unconfirmed && !wtx.inMempool) ||
    trucMismatch ||
      (!cc.includeUnsafeInputs && !safeTx) || decide (wtx.depth < cc.minDepth) ||
      decide (cc.maxDepth < wtx.depth) then
    none
  else some safeTx

/-- The checks of an output, with the default filter. -/
def outputChecks (txo : WalletTxo) : Bool :=
  decide (1 ≤ txo.txout.nValue) && decide (txo.txout.nValue ≤ maxMoney) &&
    !cc.isSelected txo.outpoint && !txo.locked &&
    !txo.spent && !((wallet.avoidReuse && cc.avoidAddressReuse) && txo.spentKey)

def getOutputType (type : TxoutType) (isFromP2sh : Bool) : OutputType :=
  match type with
  | .witnessV0Keyhash _ | .witnessV0Scripthash _ => if isFromP2sh then .p2shSegwit else .bech32
  | .scripthash _ | .pubkeyhash _ => .legacy
  | _ => .unknown

/-- The type of a coin. A script hash is looked up with the solving provider, and the coin is
skipped if that does not have the script. The size of an input is always known, so that every coin
counts as solvable. -/
def coinType (script : CScript) : Except SelectionError (Option OutputType) :=
  match solver script with
  | .scripthash hash =>
    match wallet.getSolvingProvider P script with
    -- the source reads through the null pointer
    | none => .error .outOfRange
    | some getCScript => .ok ((getCScript hash).map fun redeemScript =>
        getOutputType (solver redeemScript) true)
  | type => .ok (some (getOutputType type false))

/-- What `AvailableCoins` builds up. Unconfirmed coins of version 3 are kept apart. -/
structure Found where
  result : CoinsResult
  unconfirmedTruc : List (OutputType × COutput)
  outpoints : List COutPoint

/-- One round of `AvailableCoins`. -/
def considerTxo (found : Found) (txo : WalletTxo) : Except SelectionError Found :=
  match txChecks wallet cc txo.outpoint.hash txo.wtx with
  | none => .ok found
  | some safe =>
    if outputChecks wallet cc txo then do
      match ← coinType P wallet txo.txout.scriptPubKey with
      | none => .ok found
      | some type =>
        let output := COutput.new txo.outpoint txo.txout txo.wtx.depth
          (calculateMaximumSignedInputSize (some cc) nullOutpoint) true safe txo.wtx.time
            txo.wtx.fromMe feerate
        let outpoints := found.outpoints ++ [txo.outpoint]
        if txo.wtx.version = trucVersion ∧ txo.wtx.depth = 0 then
          .ok { found with
            unconfirmedTruc := found.unconfirmedTruc ++ [(type, output)], outpoints := outpoints }
        else .ok { found with result := found.result.add type output, outpoints := outpoints }
    else .ok found

/-- The transaction whose unconfirmed coins are worth most. Which one it is on a tie is up to the
map. -/
def highestValueTrucTx (coins : List (OutputType × COutput)) : Option Txid :=
  let values := coins.foldl (fun values entry =>
    upsert (fun _ _ => false) entry.2.outpoint.hash 0 (· + (entry.2.txout.nValue : Int)) values) []
  (minElement (fun a b => decide (b.2 < a.2)) values).map Prod.fst

/-- Add the coins of the unconfirmed transaction of version 3 that is worth most. -/
def Found.addTruc (found : Found) : CoinsResult :=
  let txid := highestValueTrucTx found.unconfirmedTruc
  (found.unconfirmedTruc.filter fun entry => decide (txid = some entry.2.outpoint.hash)).foldl
    (fun result entry => result.add entry.1 entry.2) found.result

/-- Apply the bump fees to the coins. The totals stay as they are. -/
def CoinsResult.applyBumpFees (result : CoinsResult) (bumpFees : COutPoint → Int) :
    Except SelectionError CoinsResult := do
  let coins ← result.coins.mapM fun entry => do
    let outputs ← entry.2.mapM fun output => output.applyBumpFee (bumpFees output.outpoint)
    return (entry.1, outputs)
  return { result with coins := coins }

/-- `AvailableCoins` with a feerate and the default filter. -/
def availableCoins : Except SelectionError CoinsResult := do
  let found ← wallet.txos.foldlM (considerTxo P wallet cc feerate) ⟨.empty, [], []⟩
  found.addTruc.applyBumpFees (wallet.chain.calculateIndividualBumpFees found.outpoints feerate)

end Coins

end Tessera.Wallet
