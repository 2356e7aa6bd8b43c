import Tessera.Wallet.SelectionSearch
import Tessera.Wallet.Knapsack

/-!
# Selecting coins

`SelectCoins` of `wallet/spend.cpp`: coins are put into groups, the groups are filtered by how safe
they are to spend, and the algorithms are run on each kind of output, then on all of them. Of the
results, the one of least waste is taken, and merged with the inputs that were chosen by hand.
-/

namespace Tessera.Wallet

open Lib Policy Script Tx

def maxStandardTxWeight : Int := 400000

def trucVersion : UInt32 := 3

def trucChildMaxWeight : Int := 1000

def outputGroupMaxEntries : Nat := 100

inductive OutputType where
  | legacy
  | p2shSegwit
  | bech32
  | bech32m
  | unknown
  deriving DecidableEq

/-- The order of the types as keys of a map. -/
def OutputType.lt (a b : OutputType) : Bool := decide (a.ctorIdx < b.ctorIdx)

/-- The order of scripts: a shorter one is less, and scripts of one length are compared byte by
byte. -/
def scriptLt (a b : CScript) : Bool :=
  decide (a.length < b.length) ||
    (decide (a.length = b.length) && List.lex a b fun x y => decide (x < y))

/-- What the wallet asks of `interfaces::Chain`, and the options of the node. -/
structure ChainInterface where
  relayDustFee : CFeeRate
  calculateIndividualBumpFees : List COutPoint → CFeeRate → COutPoint → Int
  calculateCombinedBumpFee : List COutPoint → CFeeRate → Option Int
  limitAncestorCount : Nat
  limitDescendantCount : Nat
  getTransactionAncestry : Txid → Nat × Nat
  checkChainLimits : CTransaction → Option String
  rejectLongChains : Bool

structure CoinSelectionParams where
  changeOutputSize : Int
  changeSpendSize : Int
  minChangeTarget : Int
  minViableChange : Int
  changeFee : Int
  costOfChange : Int
  effectiveFeerate : CFeeRate
  longTermFeerate : CFeeRate
  discardFeerate : CFeeRate
  txNoinputsSize : Int
  subtractFeeOutputs : Bool
  avoidPartialSpends : Bool
  includeUnsafeInputs : Bool
  version : UInt32
  maxTxWeight : Option Int

/-- The sorts of the two orders. -/
structure Sorts where
  byWaste : StdSort descending
  byWeight : StdSort descendingEffvalWeight

/-! ### Coins by type -/

/-- Change the entry of a `std::map`, whose entries are in the order of their keys. A missing entry
is made first. -/
def upsert {κ ν : Type} [DecidableEq κ] (lt : κ → κ → Bool) (key : κ) (new : ν) (f : ν → ν) :
    List (κ × ν) → List (κ × ν)
  | [] => [(key, f new)]
  | (k, v) :: rest =>
    if k = key then (k, f v) :: rest
    else if lt key k then (key, f new) :: (k, v) :: rest
    else (k, v) :: upsert lt key new f rest

structure CoinsResult where
  coins : List (OutputType × List COutput)
  totalAmount : Int
  totalEffectiveAmount : Option Int

namespace CoinsResult

/-- No coins. -/
def empty : CoinsResult := ⟨[], 0, none⟩

variable (result : CoinsResult)

def all : List COutput := result.coins.flatMap Prod.snd

def add (type : OutputType) (out : COutput) : CoinsResult where
  coins := upsert OutputType.lt type [] (· ++ [out]) result.coins
  totalAmount := result.totalAmount + out.txout.nValue
  totalEffectiveAmount := some (result.totalEffectiveAmount.getD 0 + out.effectiveValue)

def getAppropriateTotal (subtractFeeOutputs : Bool) : Option Int :=
  if subtractFeeOutputs then some result.totalAmount else result.totalEffectiveAmount

def shuffleCoins (R : RandomSource) : List (OutputType × List COutput) → R.State →
    List (OutputType × List COutput) × R.State
  | [], rng => ([], rng)
  | (type, coins) :: rest, rng =>
    let (coins, rng) := R.shuffle rng coins
    let (rest, rng) := shuffleCoins R rest rng
    ((type, coins) :: rest, rng)

end CoinsResult

/-! ### Groups -/

structure Groups where
  positiveGroup : List OutputGroup
  mixedGroup : List OutputGroup

/-- Add a group where it belongs. -/
def Groups.push (groups : Groups) (group : OutputGroup)
    (insertPositive insertMixed : Bool) : Groups where
  positiveGroup :=
    if insertPositive && decide (0 < group.getSelectionAmount) then groups.positiveGroup ++ [group]
    else groups.positiveGroup
  mixedGroup := if insertMixed then groups.mixedGroup ++ [group] else groups.mixedGroup

structure OutputGroupTypeMap where
  groupsByType : List (OutputType × Groups)
  allGroups : Groups

def OutputGroupTypeMap.push (groups : OutputGroupTypeMap) (group : OutputGroup) (type : OutputType)
    (insertPositive insertMixed : Bool) : OutputGroupTypeMap :=
  if group.outputs = [] then groups
  else
    { groupsByType := upsert OutputType.lt type ⟨[], []⟩ (·.push group insertPositive
      insertMixed) groups.groupsByType
      allGroups := groups.allGroups.push group insertPositive insertMixed }

structure SelectionFilter where
  filter : CoinEligibilityFilter
  allowMixedOutputTypes : Bool

/-- `FilteredOutputGroups`, with the groups that no filter accepts. -/
structure FilteredGroups where
  groups : List (CoinEligibilityFilter × OutputGroupTypeMap)
  discarded : List OutputGroup

/-- Offer a group to the filters. The entries of the filters are only ever looked up, so that their
order is free. -/
def FilteredGroups.offer (filtered : FilteredGroups) (filters : List SelectionFilter)
    (accepts : CoinEligibilityFilter → Bool) (group : OutputGroup) (type : OutputType)
    (insertPositive insertMixed : Bool) : FilteredGroups :=
  let accepting := (filters.map SelectionFilter.filter).filter fun filter =>
    group.eligibleForSpending filter && accepts filter
  { groups := accepting.foldl
      (fun groups filter =>
        upsert (fun _ _ => false) filter ⟨[], ⟨[], []⟩⟩
          (·.push group type insertPositive insertMixed) groups)
      filtered.groups
    discarded := if accepting = [] then filtered.discarded ++ [group] else filtered.discarded }

section GroupOutputs

variable (chain : ChainInterface) (params : CoinSelectionParams)

def newGroup : OutputGroup := .new params.longTermFeerate params.subtractFeeOutputs

/-- Insert a coin with what the node knows of its ancestors. -/
def insertCoin (group : OutputGroup) (output : COutput) : OutputGroup :=
  let (ancestors, clusterCount) := chain.getTransactionAncestry output.outpoint.hash
  group.insert output ancestors clusterCount

/-- `insert_output`: a coin goes to the last group of its script, or to a new one if that is full.
-/
def insertOutput (groups : List OutputGroup) (output : COutput) : List OutputGroup :=
  match groups.getLast? with
  | none => [insertCoin chain (newGroup params) output]
  | some last =>
    if outputGroupMaxEntries ≤ last.outputs.length then groups ++
      [insertCoin chain (newGroup params) output]
    else groups.dropLast ++ [insertCoin chain last output]

def scriptTypeLt (a b : CScript × OutputType) : Bool :=
  scriptLt a.1 b.1 || (!scriptLt b.1 a.1 && a.2.lt b.2)

abbrev GroupsByScript := List ((CScript × OutputType) × List OutputGroup)

/-- `push_output_groups`: the groups of each script, from the last one, which may be partly filled.
-/
def pushOutputGroups (filters : List SelectionFilter) (positiveOnly : Bool)
    (byScript : GroupsByScript) (filtered : FilteredGroups) : FilteredGroups :=
  byScript.foldl (fun filtered entry => let groups := entry.2
    (groups.reverse.zipIdx).foldl (fun filtered indexed =>
      let partialGroup := decide (indexed.2 = 0) && decide (1 < groups.length)
      filtered.offer filters (fun filter => !partialGroup || filter.includePartialGroups) indexed.1
        entry.1.2 positiveOnly (!positiveOnly)) filtered) filtered

def groupOutputs (coins : CoinsResult) (filters : List SelectionFilter) : FilteredGroups :=
  let outputs := coins.coins.flatMap fun entry => entry.2.map fun output => (entry.1, output)
  if !params.avoidPartialSpends then
    outputs.foldl (fun filtered entry =>
      filtered.offer filters (fun _ => true) (insertCoin chain (newGroup params) entry.2) entry.1
        true true) ⟨[], []⟩
  else
    let insert (byScript : GroupsByScript) (entry : OutputType × COutput) : GroupsByScript :=
      upsert scriptTypeLt (entry.2.txout.scriptPubKey, entry.1) []
        (insertOutput chain params · entry.2) byScript
    let byScript := outputs.foldl insert []
    let positive := (outputs.filter fun entry => decide (0 < entry.2.effectiveValue)).foldl insert
      []
    pushOutputGroups filters true positive (pushOutputGroups filters false byScript ⟨[], []⟩)

end GroupOutputs

/-! ### The algorithms -/

/-- Computations of coin selection. An error with a message is what `util::Error` returns; all
others end the call. -/
abbrev SelectM (R : RandomSource) (α : Type) := Comp SelectionError R.State α

/-- What an outcome is to a caller that looks at messages. -/
def caught {α : Type} : Except SelectionError α → Except SelectionError (Except String α)
  | .ok a => .ok (.ok a)
  | .error (.error message) => .ok (.error message)
  | .error e => .error e

/-- A result, or the message of its error. -/
def attempt {R : RandomSource} {α : Type} (x : SelectM R α) : SelectM R (Except String α) :=
  fun rng =>
  (caught (x rng).1, (x rng).2)

/-- The results and the explicit errors so far. -/
structure Attempts where
  results : List SelectionResult
  errors : List String

/-- Note what an algorithm returned. An empty message only says that nothing was found. -/
def Attempts.note (attempts : Attempts) : Except String SelectionResult → Attempts
  | .ok result => { attempts with results := attempts.results ++ [result] }
  | .error message => if message = "" then attempts else {
      attempts with errors := attempts.errors ++ [message] }

section Algorithms

variable (R : RandomSource) (sorts : Sorts) (chain : ChainInterface)

/-- Recompute the waste of a result with the costs of the parameters. -/
def recalculate (params : CoinSelectionParams) (result : SelectionResult) :
    Except SelectionError SelectionResult :=
  result.recalculateWaste params.minViableChange params.costOfChange params.changeFee

/-- Set the discount on bump fees, if there is one. -/
def applyDiscount (discount : Int) (result : SelectionResult) :
    Except SelectionError SelectionResult :=
  if discount = 0 then .ok result else result.setBumpFeeDiscount discount

/-- Take overlapping ancestries of the inputs into account. Bump fees only exist for unconfirmed
inputs. -/
def discountBumpFees (params : CoinSelectionParams) (result : SelectionResult) :
    Except SelectionError SelectionResult :=
  let unconfirmed := result.selectedInputs.filter fun coin => decide (coin.depth ≤ 0)
  let summed := (unconfirmed.map COutput.ancestorBumpFees).sum
  match chain.calculateCombinedBumpFee (unconfirmed.map COutput.outpoint)
    params.effectiveFeerate with
  | none => .error (.error
      ("Failed to calculate bump fees, because unconfirmed UTXOs depend on an enormous cluster " ++
      "of unconfirmed transactions."))
  | some combined => applyDiscount (summed - combined) result >>= recalculate params

/-- The results so far, and the groups of positive amount in the order that the searches leave them
in: they sort the pool in place. -/
abbrev Round := Attempts × List OutputGroup

/-- The search for a selection without change, left out if fees are subtracted from outputs. -/
def tryBnB (nTargetValue : Int) (groups : Groups) (params : CoinSelectionParams)
    (maxSelectionWeight : Int) : SelectM R Round :=
  if params.subtractFeeOutputs then pure (⟨[], []⟩, groups.positiveGroup)
  else do
    let result ← attempt (Comp.ofExcept
      (selectCoinsBnB sorts.byWaste groups.positiveGroup nTargetValue params.costOfChange
        maxSelectionWeight))
    pure (Attempts.note ⟨[], []⟩ result, sorts.byWaste.sort groups.positiveGroup)

/-- The knapsack solver, which also spends groups of negative amount. -/
def tryKnapsack (nTargetValue : Int) (groups : Groups) (params : CoinSelectionParams)
    (maxSelectionWeight : Int) (round : Round) : SelectM R Round := do
  let result ← attempt fun rng =>
    knapsackSolver R sorts.byWaste groups.mixedGroup nTargetValue params.minChangeTarget rng
      maxSelectionWeight
  pure (round.1.note result, round.2)

/-- Recompute the waste of a result, if there is one. -/
def recalculateAttempt (params : CoinSelectionParams) :
    Except String SelectionResult → SelectM R (Except String SelectionResult)
  | .ok result => Comp.ofExcept ((recalculate params result).map Except.ok)
  | .error message => pure (.error message)

variable (nTargetValue : Int) (params : CoinSelectionParams) (maxSelectionWeight : Int)

/-- The search for the least weight, at feerates of more than three times the long-term one. -/
def tryCoinGrinder (round : Round) : SelectM R Round :=
  if params.effectiveFeerate.gt (.mul 3 params.longTermFeerate) then do
    let result ← attempt (Comp.ofExcept
      (coinGrinder sorts.byWeight round.2 nTargetValue params.minChangeTarget maxSelectionWeight))
    let result ← recalculateAttempt R params result
    pure (round.1.note result, sorts.byWeight.sort round.2)
  else pure round

/-- The single random draw. -/
def trySRD (round : Round) : SelectM R Attempts := do
  let result ← attempt fun rng =>
    selectCoinsSRD R sorts.byWeight round.2 nTargetValue params.changeFee rng maxSelectionWeight
  pure (round.1.note result)

/-- What the algorithms return, one after the other. All but the first one can create a change
output. -/
def runAlgorithms (groups : Groups) (params : CoinSelectionParams) (maxSelectionWeight : Int) :
    SelectM R Attempts := do
  let round ← tryBnB R sorts nTargetValue groups params maxSelectionWeight
  let maxWeight := maxSelectionWeight - params.changeOutputSize
  Comp.require (!(decide (maxWeight < 0) && round.1.results.isEmpty))
    (.error "Maximum transaction weight is too low, can not accommodate change output")
  let round ← tryKnapsack R sorts nTargetValue groups params maxWeight round
  let round ← tryCoinGrinder R sorts nTargetValue params maxWeight round
  trySRD R sorts nTargetValue params maxWeight round

/-- The best one of the results, or an error. -/
def leastWaste (results : List SelectionResult) (otherwise : SelectM R SelectionResult) :
    SelectM R SelectionResult :=
  match minElement SelectionResult.lt results with
  | some result => pure result
  | none => otherwise

def chooseSelectionResult (nTargetValue : Int) (groups : Groups) (params : CoinSelectionParams) :
    SelectM R SelectionResult := do
  let maxSelectionWeight := params.maxTxWeight.getD maxStandardTxWeight - params.txNoinputsSize
  Comp.require (decide (0 < maxSelectionWeight))
    (.error "Maximum transaction weight is less than transaction weight without inputs")
  let attempts ← runAlgorithms R sorts nTargetValue groups params maxSelectionWeight
  let results ← Comp.ofExcept (attempts.results.mapM (discountBumpFees chain params))
  leastWaste R results (throw (.error (attempts.errors.headD "")))

/-- The results for each type of output, until there is an explicit error. -/
def attemptByType (nTargetValue : Int) (params : CoinSelectionParams) :
    List (OutputType × Groups) → SelectM R (List SelectionResult)
  | [] => pure []
  | (_, groups) :: rest => do
    match ← attempt (chooseSelectionResult R sorts chain nTargetValue groups params) with
    | .ok result => do
      let results ← attemptByType nTargetValue params rest
      pure (result :: results)
    | .error message =>
      if message = "" then attemptByType nTargetValue params rest else throw (.error message)

/-- `AttemptSelection`. Types are mixed only if none of them will do, and there are several. -/
def attemptSelection (nTargetValue : Int) (groups : OutputGroupTypeMap)
    (params : CoinSelectionParams) (allowMixedOutputTypes : Bool) : SelectM R SelectionResult := do
  let results ← attemptByType R sorts chain nTargetValue params groups.groupsByType
  leastWaste R results
    (if allowMixedOutputTypes && decide (1 < groups.groupsByType.length) then
      chooseSelectionResult R sorts chain nTargetValue groups.allGroups params
    else throw (.error ""))

/-- The filters, in the order in which they are tried. -/
def orderedFilters (spendZeroConfChange : Bool) (params : CoinSelectionParams) :
    List SelectionFilter :=
  let maxAncestors := max 1 chain.limitAncestorCount
  let maxClusterCount := max 1 chain.limitDescendantCount
  [⟨⟨1, 6, 0, 0, false⟩, false⟩, ⟨⟨1, 1, 0, 0, false⟩, true⟩] ++
    if spendZeroConfChange then
      [⟨⟨0, 1, 2, 2, false⟩, true⟩,
        ⟨⟨0, 1, min 4 (maxAncestors / 3), min 4 (maxClusterCount / 3), false⟩, true⟩,
        ⟨⟨0, 1, maxAncestors / 2, maxClusterCount / 2, false⟩, true⟩,
        ⟨⟨0, 1, maxAncestors - 1, maxClusterCount - 1, true⟩, true⟩] ++
      (if params.includeUnsafeInputs then [⟨⟨0, 0, maxAncestors - 1, maxClusterCount - 1, true⟩,
        true⟩] else []) ++
      (if chain.rejectLongChains then [] else [⟨⟨0, 1, 2 ^ 64 - 1, 2 ^ 64 - 1, true⟩, true⟩])
    else []

/-- Try the filters until one gives a result; otherwise the first explicit error. A lowered limit on
the weight stays for the filters that follow. Equal filters share an entry; the source tries it
again in the order the last attempt left its pools in, which is not carried here. -/
def tryFilters (valueToSelect : Int) (groups : List (CoinEligibilityFilter × OutputGroupTypeMap)) :
    List SelectionFilter → CoinSelectionParams → List String → SelectM R SelectionResult
  | [], _, errors => throw (.error (errors.headD ""))
  | select :: rest, params, errors =>
    match groups.lookup select.filter with
    | none => tryFilters valueToSelect groups rest params errors
    | some typeMap => do
      let limited := decide (params.version = trucVersion) &&
        (decide (select.filter.confMine = 0) || decide (select.filter.confTheirs = 0)) &&
        params.maxTxWeight.any (fun weight => decide (trucChildMaxWeight < weight))
      let params := if limited then { params with maxTxWeight := some trucChildMaxWeight }
        else params
      match ← attempt
        (attemptSelection R sorts chain valueToSelect typeMap params
          select.allowMixedOutputTypes) with
      | .ok result => pure result
      | .error message =>
        tryFilters valueToSelect groups rest params
          (if message = "" then errors else errors ++ [message])

variable (availableCoins : CoinsResult)

/-- The coins, shuffled if they are grouped and there are many. -/
def shuffleIfMany (params : CoinSelectionParams) : SelectM R CoinsResult :=
  if params.avoidPartialSpends && decide (outputGroupMaxEntries < availableCoins.all.length) then do
    let coins ← Comp.act (CoinsResult.shuffleCoins R availableCoins.coins)
    pure { availableCoins with coins := coins }
  else pure availableCoins

/-- What is said if coins were discarded and the others are not enough. Groups with too many
unconfirmed ancestors have a message of their own. -/
def discardedMessage (valueToSelect : Int) (discarded : List OutputGroup) : Option String :=
  let tooLong := discarded.filter fun group =>
    decide (max 1 chain.limitAncestorCount ≤ group.ancestors) ||
      decide (max 1 chain.limitDescendantCount ≤ group.maxClusterCount)
  let totalAmount := availableCoins.totalAmount - amountOf discarded
  if totalAmount < valueToSelect then
    if valueToSelect < totalAmount + amountOf tooLong then
      some ("Unconfirmed UTXOs are available, but spending them creates a chain of transactions " ++
        "that will be rejected by the mempool")
    else some ""
  else none

def automaticCoinSelection (spendZeroConfChange : Bool) (availableCoins : CoinsResult)
    (valueToSelect : Int) (params : CoinSelectionParams) : SelectM R SelectionResult := do
  let coins ← shuffleIfMany R availableCoins params
  let filters := orderedFilters chain spendZeroConfChange params
  let filtered := groupOutputs chain params coins filters
  match discardedMessage chain availableCoins valueToSelect filtered.discarded with
  | some message => throw (.error message)
  | none => tryFilters R sorts chain valueToSelect filtered.groups filters params []

/-- An `OutputSet` of coins, which keeps the first coin of each outpoint. -/
def outputSet : List COutput → List COutput
  | [] => []
  | coin :: rest => coin :: (outputSet rest).filter fun other => decide (other.outpoint ≠
      coin.outpoint)

variable (presetInputs : CoinsResult)

/-- The inputs chosen by hand, as a result for a target. -/
def presetResult (target : Int) (params : CoinSelectionParams) :
    Except SelectionError SelectionResult :=
  (SelectionResult.empty target .manual).addInputs (outputSet presetInputs.all)
    params.subtractFeeOutputs

/-- Merge the inputs chosen by hand into a selection. -/
def mergePreset (params : CoinSelectionParams) (result : SelectionResult) :
    Except SelectionError SelectionResult := do
  match presetInputs.getAppropriateTotal params.subtractFeeOutputs with
  | none => .error .assertion
  | some presetTotal =>
    let preselected ← presetResult presetInputs presetTotal params
    let result ← result.merge preselected
    let result ← recalculate params result
    if params.maxTxWeight.getD maxStandardTxWeight - params.txNoinputsSize < result.weight then
      .error (.error ("The combination of the pre-selected inputs and the wallet automatic " ++
        "inputs selection exceeds the transaction maximum weight. Please try sending a smaller " ++
        "amount or manually consolidating your wallet's UTXOs"))
    else .ok result

/-- `SelectCoins`. The search is for what the inputs chosen by hand leave open. -/
def selectCoins (spendZeroConfChange : Bool) (availableCoins presetInputs : CoinsResult)
    (nTargetValue : Int) (allowOtherInputs : Bool) (params : CoinSelectionParams) :
    SelectM R SelectionResult :=
  let selectionTarget := nTargetValue -
    (presetInputs.getAppropriateTotal params.subtractFeeOutputs).getD 0
  if !allowOtherInputs ∧ 0 < selectionTarget then
    throw (.error ("The preselected coins total amount does not cover the transaction target. " ++
      "Please allow other inputs to be automatically selected or include more coins manually"))
  else if selectionTarget ≤ 0 then
    Comp.ofExcept (presetResult presetInputs nTargetValue params >>= recalculate params)
  else if (availableCoins.getAppropriateTotal params.subtractFeeOutputs).getD 0 <
    selectionTarget then throw (.error "")
  else do
    let result ← automaticCoinSelection R sorts chain spendZeroConfChange availableCoins
      selectionTarget params
    if presetInputs.coins = [] then pure result
    else Comp.ofExcept (mergePreset presetInputs params result)

end Algorithms

end Tessera.Wallet
