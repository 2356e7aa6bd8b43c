import Mathlib.Data.List.Sort
import Tessera.Lib.SubsetSearch
import Tessera.Policy.FeeRate
import Tessera.Tx.Transaction

/-!
# Coins and what is selected of them

The data of `wallet/coinselection.h`: coins, groups of coins, and the result of a selection. Weights
are added up as an `int`, and what does not fit is an error.
-/

namespace Tessera.Wallet

open Policy Tx List

/-- The numbers that an `int` holds. -/
def int32Range (n : Int) : Bool := decide (-2147483648 ≤ n) && decide (n ≤ 2147483647)

/-- `std::numeric_limits<int>::max()`. -/
def intMax : Int := 2147483647

/-! ### Coins -/

/-- `COutput`, with a feerate. -/
structure COutput where
  outpoint : COutPoint
  txout : CTxOut
  depth : Int
  inputBytes : Int
  solvable : Bool
  safe : Bool
  time : Int
  fromMe : Bool
  effectiveValue : Int
  fee : Int
  longTermFee : Int
  ancestorBumpFees : Int
  deriving DecidableEq

namespace COutput

/-- The fee for an input of a size; nothing if the size is not known. -/
def inputFee (feerate : CFeeRate) (inputBytes : Int) : Int := if inputBytes < 0 then 0
    else feerate.getFee inputBytes

/-- The constructor of `COutput` with a feerate. -/
def new (outpoint : COutPoint) (txout : CTxOut) (depth inputBytes : Int)
    (solvable safe : Bool) (time : Int) (fromMe : Bool) (feerate : CFeeRate) : COutput where
  outpoint := outpoint
  txout := txout
  depth := depth
  inputBytes := inputBytes
  solvable := solvable
  safe := safe
  time := time
  fromMe := fromMe
  -- the base fee, without unconfirmed ancestors
  fee := inputFee feerate inputBytes
  effectiveValue := txout.nValue - inputFee feerate inputBytes
  longTermFee := 0
  ancestorBumpFees := 0

def withBumpFee (coin : COutput) (bumpFee : Int) : COutput :=
  { coin with
    ancestorBumpFees := bumpFee
    fee := coin.fee + bumpFee
    effectiveValue := coin.txout.nValue - (coin.fee + bumpFee) }

end COutput

structure CoinEligibilityFilter where
  confMine : Int
  confTheirs : Int
  maxAncestors : Nat
  maxClusterCount : Nat
  includePartialGroups : Bool
  deriving DecidableEq

structure OutputGroup where
  outputs : List COutput
  fromMe : Bool
  value : Int
  depth : Int
  ancestors : Nat
  maxClusterCount : Nat
  effectiveValue : Int
  fee : Int
  longTermFee : Int
  longTermFeerate : CFeeRate
  subtractFeeOutputs : Bool
  weight : Int
  deriving DecidableEq

namespace OutputGroup

/-- A group without coins. -/
def new (longTermFeerate : CFeeRate) (subtractFeeOutputs : Bool) : OutputGroup :=
  ⟨[], true, 0, 999, 0, 0, 0, 0, 0, longTermFeerate, subtractFeeOutputs, 0⟩

variable (group : OutputGroup)

def insert (output : COutput) (ancestors clusterCount : Nat) : OutputGroup :=
  let coin := { output with
    longTermFee := COutput.inputFee group.longTermFeerate output.inputBytes }
  { group with
    outputs := group.outputs ++ [coin]
    fee := group.fee + coin.fee
    longTermFee := group.longTermFee + coin.longTermFee
    effectiveValue := group.effectiveValue + coin.effectiveValue
    fromMe := group.fromMe && coin.fromMe
    value := group.value + coin.txout.nValue
    depth := min group.depth coin.depth
    ancestors := group.ancestors + ancestors
    maxClusterCount := max group.maxClusterCount clusterCount
    weight := if 0 < output.inputBytes then group.weight + output.inputBytes else group.weight }

def eligibleForSpending (filter : CoinEligibilityFilter) : Bool :=
  decide ((if group.fromMe then filter.confMine else filter.confTheirs) ≤ group.depth) &&
    decide (group.ancestors ≤ filter.maxAncestors) &&
    decide (group.maxClusterCount ≤ filter.maxClusterCount)

def getSelectionAmount : Int :=
  if group.subtractFeeOutputs then group.value else group.effectiveValue

/-- What spending the group now costs more than spending it later. -/
def waste : Int := group.fee - group.longTermFee

end OutputGroup

variable (groups : List OutputGroup)

/-- What groups are worth together. -/
def amountOf : Int := (groups.map OutputGroup.getSelectionAmount).sum

/-- What groups weigh together. -/
def weightOf : Int := (groups.map OutputGroup.weight).sum

/-- What spending groups now costs more than spending them later. -/
def wasteOf : Int := (groups.map OutputGroup.waste).sum

/-- The order `descending`: larger amounts first, and less waste first on a tie. -/
def descending (a b : OutputGroup) : Bool :=
  if a.getSelectionAmount = b.getSelectionAmount then decide (a.waste < b.waste)
  else decide (b.getSelectionAmount < a.getSelectionAmount)

/-- The order `descending_effval_weight`: larger amounts first, and less weight first on a tie. -/
def descendingEffvalWeight (a b : OutputGroup) : Bool :=
  if a.getSelectionAmount = b.getSelectionAmount then decide (a.weight < b.weight)
  else decide (b.getSelectionAmount < a.getSelectionAmount)

/-- What `std::sort` promises. The order of elements that tie is its own. -/
structure StdSort {α : Type} (lt : α → α → Bool) where
  sort : List α → List α
  perm : ∀ l, (sort l).Perm l
  sorted : ∀ l, (sort l).Pairwise fun a b => lt b a = false

/-- Insertion sort keeps the promise for an order in which ties are transitive. -/
def StdSort.insertion {α : Type} (lt : α → α → Bool)
    (htotal : ∀ a b, lt b a = false ∨ lt a b = false)
    (htrans : ∀ a b c, lt b a = false → lt c b = false → lt c a = false) : StdSort lt where
  sort := List.insertionSort fun a b => lt b a = false
  perm := List.perm_insertionSort _
  sorted l :=
    have : Std.Total fun a b => lt b a = false := ⟨htotal⟩
    have : IsTrans α fun a b => lt b a = false := ⟨htrans⟩
    List.pairwise_insertionSort _ l

/-! ### Results -/

inductive SelectionAlgorithm where
  | bnb
  | knapsack
  | srd
  | cg
  | manual
  deriving DecidableEq

/-- Why there is no result: an error with a message, which is empty if there are not enough coins;
an exception; an assertion that fails; or behaviour that the language does not define. -/
inductive SelectionError where
  | error (message : String)
  | sharedInputs
  | assertion
  | overflow
  | outOfRange
  deriving DecidableEq

/-- The sum of two weights, if it is an `int`. -/
def addWeight (a b : Int) : Except SelectionError Int :=
  if int32Range (a + b) then .ok (a + b) else .error .overflow

theorem addWeight_eq_ok {a b c : Int} (h : addWeight a b = .ok c) : c = a + b := by
  rw [addWeight] at h
  split at h
  · exact (Except.ok.inj h).symm
  · cases h

def COutput.applyBumpFee (coin : COutput) (bumpFee : Int) : Except SelectionError COutput :=
  if 0 ≤ bumpFee then .ok (coin.withBumpFee bumpFee) else .error .assertion

def errorMaxWeightExceeded : SelectionError :=
  .error ("The inputs size exceeds the maximum weight. " ++
    "Please try sending a smaller amount or manually consolidating your wallet's UTXOs")

def errorNotFound (maxTxWeightExceeded : Bool) : SelectionError :=
  if maxTxWeightExceeded then errorMaxWeightExceeded else .error ""

/-- `SelectionResult`. The inputs are a set: no two of them are the same output. -/
structure SelectionResult where
  selectedInputs : List COutput
  target : Int
  algo : SelectionAlgorithm
  useEffective : Bool
  waste : Option Int
  algoCompleted : Bool
  selectionsEvaluated : Nat
  weight : Int
  bumpFeeGroupDiscount : Int
  distinct : (selectedInputs.map COutput.outpoint).Nodup

namespace SelectionResult

/-- A result without inputs. -/
def empty (target : Int) (algo : SelectionAlgorithm) : SelectionResult :=
  ⟨[], target, algo, false, none, true, 0, 0, 0, List.nodup_nil⟩

/-- `InsertInputs`, which fails if an input is there already. -/
def insertInputs (result : SelectionResult) (inputs : List COutput) :
    Except SelectionError SelectionResult :=
  if h : ((result.selectedInputs ++ inputs).map COutput.outpoint).Nodup then
    .ok { result with selectedInputs := result.selectedInputs ++ inputs, distinct := h }
  else .error .sharedInputs

def addInput (result : SelectionResult) (group : OutputGroup) :
    Except SelectionError SelectionResult := do
  let result ← result.insertInputs group.outputs
  let weight ← addWeight result.weight group.weight
  return { result with useEffective := !group.subtractFeeOutputs, weight := weight }

def addGroups (result : SelectionResult) : List OutputGroup → Except SelectionError SelectionResult
  | [] => .ok result
  | group :: rest => do
    let result ← result.addInput group
    result.addGroups rest

def addInputs (result : SelectionResult) (inputs : List COutput) (subtractFeeOutputs : Bool) :
    Except SelectionError SelectionResult := do
  let result ← result.insertInputs inputs
  let added ← inputs.foldlM (fun sum coin => addWeight sum (max coin.inputBytes 0)) 0
  let weight ← addWeight result.weight added
  return { result with useEffective := !subtractFeeOutputs, weight := weight }

def merge (result other : SelectionResult) : Except SelectionError SelectionResult := do
  let result ← result.insertInputs other.selectedInputs
  let weight ← addWeight result.weight other.weight
  return { result with
    target := result.target + other.target
    useEffective := result.useEffective || other.useEffective
    algo := if result.algo = .manual then other.algo else result.algo
    weight := weight }

variable (result : SelectionResult)

def clear : SelectionResult :=
  { result with selectedInputs := [], waste := none, weight := 0, distinct := List.nodup_nil }

def getSelectedValue : Int :=
  (result.selectedInputs.map fun coin => (coin.txout.nValue : Int)).sum

def getSelectedEffectiveValue : Int :=
  (result.selectedInputs.map COutput.effectiveValue).sum + result.bumpFeeGroupDiscount

def getTotalBumpFees : Int :=
  (result.selectedInputs.map COutput.ancestorBumpFees).sum - result.bumpFeeGroupDiscount

/-- `GetChange`: nothing if the change would be too small. -/
def getChange (minViableChange changeFee : Int) : Int :=
  let change := if result.useEffective then result.getSelectedEffectiveValue -
    result.target - changeFee else result.getSelectedValue - result.target
  if change < minViableChange then 0 else change

def setBumpFeeDiscount (discount : Int) : Except SelectionError SelectionResult :=
  if 0 ≤ discount then .ok { result with bumpFeeGroupDiscount := discount } else .error .assertion

def recalculateWaste (minViableChange changeCost changeFee : Int) :
    Except SelectionError SelectionResult :=
  if result.selectedInputs = [] then .error .assertion
  else
    let inputs := (result.selectedInputs.map fun coin => coin.fee - coin.longTermFee).sum
    let waste := inputs - result.bumpFeeGroupDiscount
    if result.getChange minViableChange changeFee ≠ 0 then .ok
      { result with waste := some (waste + changeCost) }
    else
      let selected := if result.useEffective then result.getSelectedEffectiveValue
        else result.getSelectedValue
      if result.target ≤ selected then .ok
        { result with waste := some (waste + (selected - result.target)) }
      else .error .assertion

/-- `operator<`: less waste, or more inputs for the same waste. Results are compared after their
waste was computed. -/
def lt (result other : SelectionResult) : Bool :=
  let waste := result.waste.getD 0
  let waste' := other.waste.getD 0
  decide (waste < waste') ||
    (decide (waste = waste') && decide (other.selectedInputs.length < result.selectedInputs.length))

end SelectionResult

def minElement {α : Type} (lt : α → α → Bool) : List α → Option α
  | [] => none
  | x :: xs => some (xs.foldl (fun best y => if lt y best then y else best) x)

end Tessera.Wallet
