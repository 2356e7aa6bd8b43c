import Tessera.Wallet.CoinSelection

/-!
# Selections that are drawn at random

`SelectCoinsSRD` and `KnapsackSolver` of `wallet/coinselection.cpp`. Random choices come from a
source of which nothing is assumed but that it shuffles and stays in range.
-/

namespace Tessera.Wallet

/-- `FastRandomContext`, as far as coin selection uses it. -/
structure RandomSource where
  State : Type
  randbool : State → Bool × State
  randrange : State → Nat → Nat × State
  shuffle : {α : Type} → State → List α → List α × State
  randrange_lt : ∀ s n, 0 < n → (randrange s n).1 < n
  shuffle_perm : ∀ {α : Type} (s : State) (l : List α), (shuffle s l).1.Perm l

def changeLower : Int := 50000

def changeUpper : Int := 1000000

variable (R : RandomSource)

/-! ### Single random draw -/

/-- The groups that were drawn, as a heap: the least valuable one first. -/
structure Draw where
  heap : List OutputGroup
  selectedEffValue : Int
  weight : Int

namespace Draw

/-- Add a group to the heap. -/
def push (sort : StdSort descendingEffvalWeight) (draw : Draw) (group : OutputGroup) :
    Except SelectionError Draw := do
  let weight ← addWeight draw.weight group.weight
  return ⟨(sort.sort (group :: draw.heap)).reverse, draw.selectedEffValue +
    group.getSelectionAmount, weight⟩

/-- Remove the least valuable groups until the others are within the maximum weight. -/
def shrink (maxSelectionWeight : Int) : List OutputGroup → Int → Int → Except SelectionError Draw
  | [], value, weight => .ok ⟨[], value, weight⟩
  | top :: rest, value, weight => do
    let weight ← addWeight weight (-top.weight)
    if weight ≤ maxSelectionWeight then .ok ⟨rest, value - top.getSelectionAmount, weight⟩
    else shrink maxSelectionWeight rest (value - top.getSelectionAmount) weight

/-- What is left of a draw once groups that are too heavy were removed. -/
def limit (draw : Draw) (maxSelectionWeight : Int) : Except SelectionError Draw :=
  if maxSelectionWeight < draw.weight then shrink maxSelectionWeight draw.heap
    draw.selectedEffValue draw.weight
  else .ok draw

end Draw

/-- The loop of `SelectCoinsSRD`. -/
def drawGroups (sort : StdSort descendingEffvalWeight) (targetValue maxSelectionWeight : Int)
    (result : SelectionResult) : List OutputGroup → Draw → Bool →
    Except SelectionError SelectionResult
  | [], _, maxTxWeightExceeded => .error (errorNotFound maxTxWeightExceeded)
  | group :: rest, draw, maxTxWeightExceeded => do
    let draw ← draw.push sort group
    let exceeded := decide (maxSelectionWeight < draw.weight)
    let draw ← draw.limit maxSelectionWeight
    if targetValue ≤ draw.selectedEffValue then result.addGroups draw.heap
    else
      drawGroups sort targetValue maxSelectionWeight result rest draw
        (maxTxWeightExceeded || exceeded)

def selectCoinsSRD (sort : StdSort descendingEffvalWeight) (utxoPool : List OutputGroup)
    (targetValue changeFee : Int) (rng : R.State) (maxSelectionWeight : Int) :
    Except SelectionError SelectionResult × R.State :=
  let (groups, rng) := R.shuffle rng utxoPool
  -- the target includes change
  (drawGroups sort (targetValue + (changeLower + changeFee)) maxSelectionWeight
    (SelectionResult.empty targetValue .srd) groups ⟨[], 0, 0⟩ false, rng)

/-! ### The knapsack solver -/

/-- The state of `ApproximateBestSubset`. -/
structure Subset where
  rng : R.State
  included : List Bool
  total : Int
  selectedCoinsWeight : Int
  reachedTarget : Bool
  best : List Bool
  nBest : Int

namespace Subset

variable {R} (groups : List OutputGroup) (nTargetValue maxSelectionWeight : Int)

/-- One group in one pass. The first pass draws groups, the second one takes those that were not
drawn. -/
def round (firstPass : Bool) (s : Subset R) (i : Nat) : Except SelectionError (Subset R) :=
  let amount := (groups[i]?.map OutputGroup.getSelectionAmount).getD 0
  let weight := (groups[i]?.map OutputGroup.weight).getD 0
  let (take, rng) := if firstPass then R.randbool s.rng else (!s.included.getD i false, s.rng)
  let s := { s with rng := rng }
  if !take then .ok s
  else do
    let selected ← addWeight s.selectedCoinsWeight weight
    let s := { s with
      total := s.total + amount
      selectedCoinsWeight := selected
      included := s.included.set i true }
    if nTargetValue ≤ s.total ∧ s.selectedCoinsWeight ≤ maxSelectionWeight then
      let s := if s.total < s.nBest then { s with nBest := s.total, best := s.included } else s
      .ok { s with
        reachedTarget := true
        total := s.total - amount
        selectedCoinsWeight := s.selectedCoinsWeight - weight
        included := s.included.set i false }
    else .ok s

/-- One repetition: a pass that draws groups, and another one if it did not reach the target. -/
def repetition (s : Subset R) : Except SelectionError (Subset R) := do
  let indices := List.range groups.length
  let s := { s with
    included := List.replicate groups.length false
    total := 0
    selectedCoinsWeight := 0
    reachedTarget := false }
  let s ← indices.foldlM (round groups nTargetValue maxSelectionWeight true) s
  if s.reachedTarget then .ok s
  else indices.foldlM (round groups nTargetValue maxSelectionWeight false) s

/-- The repetitions until the target is met exactly. -/
def repetitions : Nat → Subset R → Except SelectionError (Subset R)
  | 0, s => .ok s
  | n + 1, s =>
    if s.nBest = nTargetValue then .ok s
    else do
      let s ← repetition groups nTargetValue maxSelectionWeight s
      repetitions n s

end Subset

/-- `ApproximateBestSubset`: the groups that were chosen, and what they are worth. -/
def approximateBestSubset (groups : List OutputGroup)
    (nTotalLower nTargetValue maxSelectionWeight : Int) (rng : R.State) :
    Except SelectionError (List Bool × Int × R.State) := do
  let all := List.replicate groups.length true
  let s ← Subset.repetitions groups nTargetValue maxSelectionWeight 1000
    ⟨rng, [], 0, 0, false, all, nTotalLower⟩
  return (s.best, s.nBest, s.rng)

/-- What `KnapsackSolver` knows of the groups after its first loop. -/
structure Sifted where
  lowestLarger : Option OutputGroup
  applicable : List OutputGroup
  nTotalLower : Int
  maxWeightExceeded : Bool

/-- The first loop of `KnapsackSolver`; it ends early at a group that meets the target. -/
def siftGroups (nTargetValue changeTarget maxSelectionWeight : Int) :
    List OutputGroup → Sifted → Except OutputGroup Sifted
  | [], sifted => .ok sifted
  | group :: rest, sifted =>
    let amount := group.getSelectionAmount
    if maxSelectionWeight < group.weight then
      siftGroups nTargetValue changeTarget maxSelectionWeight rest
        { sifted with maxWeightExceeded := true }
    else if amount = nTargetValue then .error group
    else if amount < nTargetValue + changeTarget then
      siftGroups nTargetValue changeTarget maxSelectionWeight rest
        { sifted with
          applicable := sifted.applicable ++ [group], nTotalLower := sifted.nTotalLower + amount }
    else
      let lower := match sifted.lowestLarger with
        | none => true
        | some larger => decide (amount < larger.getSelectionAmount)
      siftGroups nTargetValue changeTarget maxSelectionWeight rest
        (if lower then { sifted with lowestLarger := some group } else sifted)

/-- The groups with a flag. -/
def flagged (groups : List OutputGroup) (flags : List Bool) : List OutputGroup :=
  (groups.zip flags).filterMap fun (group, flag) => if flag then some group else none

/-- The subset of one approximation, or of two if the first one did not meet the target. -/
def approximateTwice (groups : List OutputGroup)
    (nTotalLower nTargetValue changeTarget maxSelectionWeight : Int)
    (rng : R.State) : Except SelectionError (List Bool × Int × R.State) := do
  let first ← approximateBestSubset R groups nTotalLower nTargetValue maxSelectionWeight rng
  if first.2.1 ≠ nTargetValue ∧ nTargetValue + changeTarget ≤ nTotalLower then
    approximateBestSubset R groups nTotalLower (nTargetValue + changeTarget)
      maxSelectionWeight first.2.2
  else .ok first

/-- What the last part of `KnapsackSolver` selects: the next bigger group if the subset is no good
solution or the group is closer, otherwise the subset, or the bigger group if the subset is too
heavy. -/
def selectSubset (nTargetValue changeTarget maxSelectionWeight : Int) (sifted : Sifted)
    (result : SelectionResult) (subset : List OutputGroup) (nBest : Int) :
    Except SelectionError SelectionResult :=
  match sifted.lowestLarger.filter fun larger =>
      (decide (nBest ≠ nTargetValue) && decide (nBest < nTargetValue + changeTarget)) ||
        decide (larger.getSelectionAmount ≤ nBest) with
  | some larger => result.addInput larger
  | none => do
    let selected ← result.addGroups subset
    if maxSelectionWeight < selected.weight then
      match sifted.lowestLarger with
      | none => .error errorMaxWeightExceeded
      | some larger => selected.clear.addInput larger
    else .ok selected

variable (sort : StdSort descending)

/-- The last part of `KnapsackSolver`, which solves the subset sum. -/
def solveSubset (nTargetValue changeTarget maxSelectionWeight : Int) (sifted : Sifted)
    (result : SelectionResult) (rng : R.State) : Except SelectionError SelectionResult × R.State :=
  let groups := sort.sort sifted.applicable
  match approximateTwice R groups sifted.nTotalLower nTargetValue changeTarget
    maxSelectionWeight rng with
  | .error e => (.error e, rng)
  | .ok (best, nBest, rng) =>
    (selectSubset nTargetValue changeTarget maxSelectionWeight sifted result
      (flagged groups best) nBest, rng)

def knapsackSolver (groups : List OutputGroup) (nTargetValue changeTarget : Int)
    (rng : R.State) (maxSelectionWeight : Int) : Except SelectionError SelectionResult × R.State :=
  let result := SelectionResult.empty nTargetValue .knapsack
  let (groups, rng) := R.shuffle rng groups
  match siftGroups nTargetValue changeTarget maxSelectionWeight groups ⟨none, [], 0, false⟩ with
  | .error group => (result.addInput group, rng)
  | .ok sifted =>
    -- all smaller groups together, if they meet the target and are not too heavy
    let exact := if sifted.nTotalLower = nTargetValue then some (result.addGroups sifted.applicable)
      else none
    match exact with
    | some (.error e) => (.error e, rng)
    | some (.ok selected) =>
      if selected.weight ≤ maxSelectionWeight then (.ok selected, rng)
      else solveSubset R sort nTargetValue changeTarget maxSelectionWeight
        { sifted with maxWeightExceeded := true } selected.clear rng
    | none =>
      if sifted.nTotalLower < nTargetValue then
        match sifted.lowestLarger with
        | none => (.error (errorNotFound sifted.maxWeightExceeded), rng)
        | some larger => (result.addInput larger, rng)
      else solveSubset R sort nTargetValue changeTarget maxSelectionWeight sifted result rng

end Tessera.Wallet
