import Tessera.Wallet.AvailableCoins

/-!
# Creating a transaction

`CreateTransaction` of `wallet/spend.cpp`. The parameters of the selection are set, coins are
selected, the transaction is assembled with its change, the fee is settled between change and
recipients, and the transaction is signed and checked.

Amounts are integers. The sum of the recipients' amounts is checked against 64 bits, since the
caller chooses them: beyond that the source is undefined.
-/

namespace Tessera.Wallet

open Lib Policy Script Tx Validation

/-! ### Dust -/

def getDustThreshold (txout : CTxOut) (dustRelayFee : CFeeRate) : Int :=
  if isUnspendable txout.scriptPubKey then 0
  -- the witness is not discounted, so that both kinds of inputs count the same
  else dustRelayFee.getFee (outputSize txout + (32 + 4 + 1 + 107 + 4))

def isDust (txout : CTxOut) (dustRelayFee : CFeeRate) : Bool :=
  decide ((txout.nValue : Int) < getDustThreshold txout dustRelayFee)

/-! ### Planning -/

structure CRecipient where
  dest : CTxDestination
  nAmount : Int
  subtractFeeFromAmount : Bool

def CRecipient.txout (recipient : CRecipient) : CTxOut :=
  ⟨recipient.nAmount, getScriptForDestination recipient.dest⟩

/-- What is known before coins are selected. -/
structure FundingPlan where
  params : CoinSelectionParams
  recipientsSum : Int
  selectionTarget : Int
  scriptChange : CScript
  changeError : String

/-- The computations that make a transaction. -/
abbrev CreateM (R : RandomSource) (α : Type) := Comp CreateError R.State α

def isValidDestination : CTxDestination → Bool
  | .noDestination _ => false
  | _ => true

/-- The script for change, empty if there is none, and the error if change is needed all the same.
-/
def changeScript (cc : CCoinControl) (newDestination : Except String CTxDestination) :
    Except CreateError (CScript × String) :=
  match cc.destChange with
  | .noDestination _ =>
    match newDestination with
    | .error message => .ok ([], "Transaction needs a change address, but we can't generate it. " ++
        message)
    | .ok dest =>
      let script := getScriptForDestination dest
      if isValidDestination dest = script.isEmpty then .error (.aborted .assertion)
      else .ok (script, "")
  | dest => .ok (getScriptForDestination dest, "")

/-- The size of the outputs to the recipients and the sum of their amounts, none of which may be
dust. -/
def addRecipients (dustRelayFee : CFeeRate) : List CRecipient → Int × Int →
    Except CreateError (Int × Int)
  | [], sums => .ok sums
  | recipient :: rest, (size, sum) =>
    if isDust recipient.txout dustRelayFee then .error (.error "Transaction amount too small")
    else if int64Range (sum + recipient.nAmount) then
      addRecipients dustRelayFee rest (size + outputSize recipient.txout, sum + recipient.nAmount)
    else .error (.aborted .overflow)

def generateChangeTarget (R : RandomSource) (paymentValue changeFee : Int) (rng : R.State) :
    Int × R.State :=
  if paymentValue ≤ changeLower / 2 then (changeFee + changeLower, rng)
  else
    let (n, rng) := R.randrange rng (min (paymentValue * 2) changeUpper - changeLower).toNat
    (changeFee + n + changeLower, rng)

def minStandardTxNonwitnessSize : Int := 65

section Create

variable (P : Primitives) (R : RandomSource) (sorts : Sorts) (wallet : SpendWallet)
  (cc : CCoinControl) (vecSend : List CRecipient)

/-- Refuse a feerate that the caller did not ask for. -/
def checkFeerate (feerate : CFeeRate) (reason : FeeReason) : Except CreateError Unit :=
  if cc.feerate.any feerate.gt then
    .error (.feerateTooLow (cc.feerate.getD feerate) feerate (decide (reason = .required)))
  else if reason = .fallback ∧ !wallet.allowFallbackFee then
    .error (.error ("Fee estimation failed. Fallbackfee is disabled. Wait a few blocks or " ++
      "enable -fallbackfee."))
  else .ok ()

/-- `min_viable_change`: at least the dust threshold, and more than it costs to spend the change. -/
def minViableChange (script : CScript) : Int :=
  max (wallet.discardRate.getFee (calculateMaximumSignedInputSize none nullOutpoint) + 1)
    (getDustThreshold ⟨0, script⟩ wallet.discardRate)

def selectionParams (effectiveFeerate : CFeeRate) (scriptChange : CScript)
    (txNoinputsSize minChangeTarget : Int) : CoinSelectionParams :=
  let changeOutputSize := outputSize ⟨0, scriptChange⟩
  -- the size of an input is always known
  let changeSpendSize := calculateMaximumSignedInputSize none nullOutpoint
  { changeOutputSize := changeOutputSize
    changeSpendSize := changeSpendSize
    minChangeTarget := minChangeTarget
    minViableChange := minViableChange wallet scriptChange
    changeFee := effectiveFeerate.getFee changeOutputSize
    costOfChange :=
      wallet.discardRate.getFee changeSpendSize + effectiveFeerate.getFee changeOutputSize
    effectiveFeerate := effectiveFeerate
    longTermFeerate := wallet.consolidateFeerate
    discardFeerate := wallet.discardRate
    txNoinputsSize := txNoinputsSize
    subtractFeeOutputs := vecSend.any CRecipient.subtractFeeFromAmount
    avoidPartialSpends := cc.avoidPartialSpends
    includeUnsafeInputs := cc.includeUnsafeInputs
    version := cc.version
    maxTxWeight := some (cc.maxTxWeight.getD maxStandardTxWeight) }

/-- The plan once its parts are known. Fees that are subtracted from outputs are not added to the
target. -/
def makePlan (params : CoinSelectionParams) (recipientsSum : Int) (script : CScript × String) :
    FundingPlan where
  params := params
  recipientsSum := recipientsSum
  selectionTarget := recipientsSum +
    params.effectiveFeerate.getFee (if params.subtractFeeOutputs then 0 else params.txNoinputsSize)
  scriptChange := script.1
  changeError := script.2

/-- The first part of `CreateTransactionInternal`: the parameters of the selection and its target.
-/
def planFunding (newDestination : Except String CTxDestination) : CreateM R FundingPlan := do
  let maxTxWeight := cc.maxTxWeight.getD maxStandardTxWeight
  Comp.require (decide (minStandardTxNonwitnessSize ≤ maxTxWeight) &&
    decide (maxTxWeight ≤ maxStandardTxWeight))
    (.error "Maximum transaction weight must be between 65 and 400000")
  -- version, locktime, input count, marker and flag, and the output count
  let sums ← Comp.ofExcept
    (addRecipients wallet.chain.relayDustFee vecSend (11 + getSizeOfCompactSize vecSend.length, 0))
  let script ← Comp.ofExcept (changeScript cc newDestination)
  let feerate := wallet.getMinimumFeeRate cc
  Comp.ofExcept (checkFeerate wallet cc feerate.1 feerate.2)
  -- the source divides by the number of recipients
  Comp.require (!vecSend.isEmpty) (.aborted .outOfRange)
  let minChangeTarget ← Comp.act
    (generateChangeTarget R (sums.2 / vecSend.length) (feerate.1.getFee (outputSize ⟨0, script.1⟩)))
  let plan := makePlan (selectionParams wallet cc vecSend feerate.1 script.1 sums.1 minChangeTarget)
    sums.2 script
  Comp.require (!(decide (plan.selectionTarget = 0) && !cc.hasSelected))
    (.error ("Transaction requires one destination of non-zero value, a non-zero feerate, " ++
      "or a pre-selected input"))
  pure plan

/-! ### Selecting -/

/-- What is said if the selection failed without a message. -/
def insufficientFunds (plan : FundingPlan) (presetInputs available : CoinsResult) : CreateError :=
  let effective := presetInputs.totalEffectiveAmount.getD 0 + available.totalEffectiveAmount.getD 0
  if plan.recipientsSum ≤ presetInputs.totalAmount + available.totalAmount ∧ effective <
    plan.selectionTarget then .exceedsBalance (plan.selectionTarget - plan.recipientsSum)
  else .error "Insufficient funds"

/-- What the outcome of a selection is to the caller. An error without a message is a general one.
-/
def selectionOutcome {α : Type} (general : CreateError) : Except SelectionError α →
    Except CreateError α
  | .ok a => .ok a
  | .error (.error message) => .error (if message = "" then general else .error message)
  | .error e => .error (.aborted e)

def runSelection {α : Type} (general : CreateError) (x : SelectM R α) : CreateM R α := fun rng =>
  (selectionOutcome general (x rng).1, (x rng).2)

def presetCoins (feerate : CFeeRate) : Except CreateError CoinsResult :=
  if cc.hasSelected then fetchSelectedInputs wallet cc feerate else .ok .empty

/-- The coins of the wallet, if others than those chosen by hand are allowed. -/
def otherCoins (feerate : CFeeRate) : Except SelectionError CoinsResult :=
  if cc.allowOtherInputs then availableCoins P wallet cc feerate else .ok .empty

/-- The second part of `CreateTransactionInternal`: the coins. -/
def selectFunds (plan : FundingPlan) : CreateM R SelectionResult := do
  let presetInputs ← Comp.ofExcept (presetCoins wallet cc plan.params.effectiveFeerate)
  let available ← Comp.ofExcept (orAbort (otherCoins P wallet cc plan.params.effectiveFeerate))
  runSelection R (insufficientFunds plan presetInputs available)
    (selectCoins R sorts wallet.chain wallet.spendZeroConfChange available presetInputs
      plan.selectionTarget cc.allowOtherInputs plan.params)

/-! ### Assembling -/

def maxSequenceNonfinal : UInt32 := 0xfffffffe

def maxBip125RbfSequence : UInt32 := 0xfffffffd

def locktimeThreshold : Nat := 500000000

/-- Whether a coin has to stand before another one: those with a position do, in the order of their
positions. -/
def positionLt (a b : COutput) : Bool :=
  match cc.getSelectionPos a.outpoint, cc.getSelectionPos b.outpoint with
  | some a, some b => decide (a < b)
  | some _, none => true
  | none, _ => false

/-- `std::stable_sort` by position. -/
def orderSelected (coins : List COutput) : List COutput :=
  if cc.hasSelected && decide (0 < cc.selectionPos) then
    coins.insertionSort fun a b => positionLt cc b a = false
  else coins

def inputOf (coin : COutput) : CTxIn where
  prevout := coin.outpoint
  scriptSig := ((cc.find coin.outpoint).bind PreselectedInput.scriptSig).getD []
  nSequence := (cc.getSequence coin.outpoint).getD
    (if cc.signalBip125Rbf.getD wallet.signalRbf then maxBip125RbfSequence else maxSequenceNonfinal)
  scriptWitness := ((cc.find coin.outpoint).bind PreselectedInput.scriptWitness).getD []

/-- `DiscourageFeeSniping`: the locktime, sometimes further back than the tip. -/
def discourageFeeSniping (vin : List CTxIn) : CreateM R Nat := do
  Comp.require (!vin.isEmpty) (.aborted .assertion)
  let locktime ← Comp.act fun rng =>
    if wallet.isCurrentForAntiFeeSniping then
      let (n, rng) := R.randrange rng 10
      if n = 0 then
        let (back, rng) := R.randrange rng 100
        (wallet.lastBlockHeight - back, rng)
      else (wallet.lastBlockHeight, rng)
    else (0, rng)
  Comp.require (decide (locktime < locktimeThreshold)) (.aborted .assertion)
  Comp.require (vin.all fun txin => txin.nSequence == maxSequenceNonfinal ||
    txin.nSequence == maxBip125RbfSequence) (.aborted .assertion)
  pure locktime

def chooseLocktime (vin : List CTxIn) : CreateM R Nat :=
  match cc.locktime with
  | some locktime => pure locktime.toNat
  | none =>
    if vin.any fun txin => (cc.getSequence txin.prevout).isSome then pure 0
    else discourageFeeSniping R wallet vin

/-- The transaction before its fee is settled, and where its change is. -/
structure Draft where
  tx : CTransaction
  changePos : Option Nat

variable (changePos : Option Nat)

/-- The position of the change: the one asked for, or a random one. -/
def placeChange : CreateM R Nat :=
  match changePos with
  | none => Comp.act fun rng => R.randrange rng (vecSend.length + 1)
  | some pos =>
    if vecSend.length < pos then throw (.error "Transaction change output index out of range")
    else pure pos

/-- The outputs before the fee is settled, with the change if there is one. -/
def assembleOutputs (plan : FundingPlan) (changeAmount : Int) : CreateM R
    (List CTxOut × Option Nat) :=
  if 0 < changeAmount then do
    let pos ← placeChange R vecSend changePos
    pure ((vecSend.map CRecipient.txout).insertIdx pos ⟨changeAmount, plan.scriptChange⟩, some pos)
  else pure (vecSend.map CRecipient.txout, none)

/-- The third part of `CreateTransactionInternal`: the transaction without its fee. -/
def assemble (plan : FundingPlan) (result : SelectionResult) : CreateM R Draft := do
  let outputs ← assembleOutputs R vecSend changePos plan
    (result.getChange plan.params.minViableChange plan.params.changeFee)
  let coins ← Comp.act fun rng => R.shuffle rng result.selectedInputs
  let vin := (orderSelected cc coins).map (inputOf wallet cc)
  let locktime ← chooseLocktime R wallet cc vin
  pure ⟨⟨vin, outputs.1, cc.version, UInt32.ofNat locktime⟩, outputs.2⟩

/-! ### Settling the fee -/

def calculateOutputValue (vout : List CTxOut) : Int :=
  (vout.map fun txout => (txout.nValue : Int)).sum

def addValue (vout : List CTxOut) (pos : Nat) (amount : Int) : List CTxOut :=
  vout.modify pos fun txout => { txout with nValue := (txout.nValue : Int) + amount }

/-- The share of a recipient in a shortfall. Division truncates, and the first recipient pays the
remainder. -/
def shareOf (shortfall : Int) (count : Nat) (first : Bool) : Int :=
  shortfall.tdiv count + if first then shortfall.tmod count else 0

/-- The loop that subtracts the fee from the recipients. The index skips the change output. -/
def subtractFee (dustRelayFee : CFeeRate) (toReduce : Int) (count : Nat) (changePos : Option Nat) :
    List CRecipient → Nat → Bool → List CTxOut → Except CreateError (List CTxOut)
  | [], _, _, vout => .ok vout
  | recipient :: rest, i, first, vout =>
    let i := if changePos = some i then i + 1 else i
    if recipient.subtractFeeFromAmount then
      let vout := addValue vout i (-shareOf toReduce count first)
      match vout[i]? with
      | none => .error (.aborted .outOfRange)
      | some txout =>
        if isDust txout dustRelayFee then
          if (txout.nValue : Int) < 0 then
            .error (.error "The transaction amount is too small to pay the fee")
          else
            .error (.error
              "The transaction amount is too small to send after the fee has been deducted")
        else subtractFee dustRelayFee toReduce count changePos rest (i + 1) false vout
    else subtractFee dustRelayFee toReduce count changePos rest (i + 1) first vout

variable (selected feeNeeded : Int)

/-- The change takes what is paid beyond the fee that is needed. -/
def adjustChange (draft : Draft) (fee : Int) : Except CreateError (List CTxOut × Int) :=
  match draft.changePos with
  | none => .ok (draft.tx.vout, fee)
  | some pos =>
    if feeNeeded < fee then
      let vout := addValue draft.tx.vout pos (fee - feeNeeded)
      let fee := selected - calculateOutputValue vout
      if feeNeeded ≠ fee then .error (.internalBug "Change adjustment: Fee needed != fee paid")
      else .ok (vout, fee)
    else .ok (draft.tx.vout, fee)

/-- Check that the recipients have paid what was missing of the fee. -/
def checkCharged (vout : List CTxOut) : Except CreateError (List CTxOut × Int) :=
  let fee := selected - calculateOutputValue vout
  if feeNeeded ≠ fee then .error (.internalBug "SFFO: Fee needed != fee paid") else .ok (vout, fee)

/-- The recipients that pay for the fee make up for what is missing of it. -/
def chargeRecipients (changePos : Option Nat) (vout : List CTxOut) (fee : Int) :
    Except CreateError (List CTxOut × Int) :=
  if vecSend.any CRecipient.subtractFeeFromAmount then
    subtractFee wallet.chain.relayDustFee (feeNeeded - fee)
      (vecSend.countP CRecipient.subtractFeeFromAmount) changePos
      vecSend 0 true vout >>= checkCharged selected feeNeeded
  else .ok (vout, fee)

/-- Refuse a fee below the one that is needed. -/
def checkFee (feeNeeded : Int) (settled : List CTxOut × Int) : Except CreateError
    (List CTxOut × Int) :=
  if settled.2 < feeNeeded then .error (.internalBug "Fee needed > fee paid") else .ok settled

/-- The fourth part of `CreateTransactionInternal`: the outputs and the fee. -/
def settleFees (selected feeNeeded : Int) (draft : Draft) : Except CreateError
    (List CTxOut × Int) :=
  let fee := selected - calculateOutputValue draft.tx.vout
  if fee < 0 then .error (.internalBug "Fee paid < 0")
  else do
    let adjusted ← adjustChange selected feeNeeded draft fee
    let charged ← chargeRecipients wallet vecSend selected feeNeeded draft.changePos
      adjusted.1 adjusted.2
    checkFee feeNeeded charged

/-! ### The whole -/

structure CreatedTransactionResult where
  tx : CTransaction
  fee : Int
  changePos : Option Nat

def getTransactionWeight (tx : CTransaction) : Int := ((tx.serialize true).length : Int)

def draftSize (draft : Draft) : Except CreateError TxSize := do
  let size ← orAbort (calculateMaximumSignedTxSize wallet cc draft.tx)
  if size.vsize = -1 then .error (.error "Missing solving data for estimating transaction size")
  else .ok size

def neededFee (plan : FundingPlan) (result : SelectionResult) (size : TxSize) : Int :=
  plan.params.effectiveFeerate.getFee size.vsize + result.getTotalBumpFees

def signIfAsked (sign : Bool) (rnd : Nat → CKeyID → Uint256) (tx : CTransaction) :
    Except CreateError CTransaction :=
  if sign then
    match wallet.keys.signTransaction P wallet.mapWallet rnd tx with
    | (true, tx) => .ok tx
    | (false, _) => .error (.error "Signing transaction failed")
  else .ok tx

/-- The last checks of `CreateTransactionInternal`. -/
def checkCreated (sign : Bool) (size : TxSize) (tx : CTransaction) (fee : Int) :
    Except CreateError Unit :=
  if maxStandardTxWeight < (if sign then getTransactionWeight tx else size.weight) then
    .error (.error "Transaction too large")
  else if wallet.defaultMaxTxFee < fee then
    .error (.error "Fee exceeds maximum configured by user (e.g. -maxtxfee, maxfeerate)")
  else
    match if wallet.chain.rejectLongChains then wallet.chain.checkChainLimits tx else none with
    | some message => .error (.error message)
    | none => .ok ()

/-- Give up if change is required and there is no script for it. -/
def checkChange (plan : FundingPlan) (draft : Draft) : Except CreateError Unit :=
  if plan.scriptChange.isEmpty && draft.changePos.isSome then .error (.error plan.changeError)
  else .ok ()

/-- The part of `CreateTransactionInternal` after the transaction is assembled. -/
def finish (sign : Bool) (rnd : Nat → CKeyID → Uint256) (plan : FundingPlan)
    (result : SelectionResult) (draft : Draft) : Except CreateError CreatedTransactionResult := do
  let size ← draftSize wallet cc draft
  let settled ← settleFees wallet vecSend result.getSelectedValue (neededFee plan result size) draft
  checkChange plan draft
  let tx ← signIfAsked P wallet sign rnd { draft.tx with vout := settled.1 }
  checkCreated wallet sign size tx settled.2
  pure ⟨tx, settled.2, draft.changePos⟩

def createTransactionInternal (changePos : Option Nat) (sign : Bool) (rnd : Nat → CKeyID → Uint256)
    (newDestination : Except String CTxDestination) : CreateM R CreatedTransactionResult := do
  let plan ← planFunding R wallet cc vecSend newDestination
  let result ← selectFunds P R sorts wallet cc plan
  let draft ← assemble R wallet cc vecSend changePos plan result
  Comp.ofExcept (finish P wallet cc vecSend sign rnd plan result draft)

/-- What `ExtractDestination` leaves in its second argument, also where it returns false. -/
def extractedDestination (script : CScript) : CTxDestination :=
  match extractDestination script, solver script with
  | some dest, _ => dest
  | none, .pubkey key => if (CPubKey.set key).isValid then .pubKey (.set
      key) else .noDestination script
  | none, _ => .noDestination script

variable (created : CreatedTransactionResult)

/-- The coin control of the second attempt: it groups coins, and change goes where it went in the
first one. -/
def groupedControl : CCoinControl :=
  { cc with
    avoidPartialSpends := true
    destChange := match created.changePos.bind fun pos => created.tx.vout[pos]? with
      | some change => extractedDestination change.scriptPubKey
      | none => cc.destChange }

/-- A fee of zero means that there is no estimate of the feerate. -/
def triesGrouped : Bool :=
  decide (0 < created.fee) && decide (-1 < wallet.maxApsFee) && !cc.avoidPartialSpends

/-- The outcome of an attempt that may fail, but not abort. -/
def unlessFailed {α : Type} : Except CreateError α → Except CreateError (Option α)
  | .ok a => .ok (some a)
  | .error (.aborted e) => .error (.aborted e)
  | .error _ => .ok none

def mayFail {α : Type} (x : CreateM R α) : CreateM R (Option α) :=
  fun rng => (unlessFailed (x rng).1, (x rng).2)

/-- The second transaction if there is one and its fee is within the limit, otherwise the first one.
-/
def preferGrouped (ungrouped : CreatedTransactionResult) : Option CreatedTransactionResult →
    CreatedTransactionResult
  | some grouped => if grouped.fee ≤ ungrouped.fee + wallet.maxApsFee then grouped else ungrouped
  | none => ungrouped

/-- `CreateTransaction`. Each attempt signs with its own randomness and may ask for a destination of
its own. -/
def createTransaction (changePos : Option Nat) (sign : Bool)
    (rnd rndGrouped : Nat → CKeyID → Uint256)
    (newDestination newDestinationGrouped : Except String CTxDestination) :
    CreateM R CreatedTransactionResult := do
  Comp.require (!vecSend.isEmpty) (.error "Transaction must have at least one recipient")
  Comp.require (!vecSend.any fun recipient => decide (recipient.nAmount < 0))
    (.error "Transaction amounts must not be negative")
  let created ← createTransactionInternal P R sorts wallet cc vecSend changePos sign rnd
    newDestination
  if triesGrouped wallet cc created then do
    let grouped ← mayFail R (createTransactionInternal P R sorts wallet (groupedControl cc created)
      vecSend changePos sign rndGrouped newDestinationGrouped)
    pure (preferGrouped wallet created grouped)
  else pure created

end Create

end Tessera.Wallet
