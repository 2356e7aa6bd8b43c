import Mathlib.Data.List.Flatten
import Tessera.Lib.Selections
import Tessera.Validation.TxCheck
import Tessera.Wallet.CoinSelection

/-!
# Searching a pool of coins

What `SelectCoinsBnB` and `CoinGrinder` of `wallet/coinselection.cpp` share: the current selection
with its sums, the sums of the amounts that are left, and the groups that are skipped because they
tie with the one before.
-/

namespace Tessera.Wallet

open Lib.SubsetSearch Tx Validation OutputGroup List

variable {pool : List OutputGroup}

def totalTries : Nat := 100000

/-! ### The current selection -/

/-- The current selection of a search: its indices in the pool, the last one first, and its sums. -/
structure Selection (pool : List OutputGroup) where
  indices : List Nat
  amount : Int
  weight : Int
  waste : Int
  amount_eq : amount = total pool getSelectionAmount indices
  weight_eq : weight = total pool OutputGroup.weight indices
  waste_eq : waste = total pool OutputGroup.waste indices

namespace Selection

variable (pool) in
/-- Nothing is selected. -/
def empty : Selection pool := ⟨[], 0, 0, 0, rfl, rfl, rfl⟩

/-- Select a group. -/
def push (s : Selection pool) (i : Nat) : Selection pool where
  indices := i :: s.indices
  amount := s.amount + valueAt pool getSelectionAmount i
  weight := s.weight + valueAt pool OutputGroup.weight i
  waste := s.waste + valueAt pool OutputGroup.waste i
  amount_eq := by rw [s.amount_eq, total_cons, Int.add_comm]
  weight_eq := by rw [s.weight_eq, total_cons, Int.add_comm]
  waste_eq := by rw [s.waste_eq, total_cons, Int.add_comm]

private theorem sub_head_eq_total_tail (f : OutputGroup → Int) (indices : List Nat) :
    total pool f indices - (indices.head?.map (valueAt pool f)).getD 0 =
      total pool f indices.tail := by
  cases indices with
  | nil => rfl
  | cons i rest =>
    rw [total_cons, head?_cons, Option.map_some, Option.getD_some, tail_cons]
    omega

/-- `deselect_last`. -/
def pop (s : Selection pool) : Selection pool where
  indices := s.indices.tail
  amount := s.amount - (s.indices.head?.map (valueAt pool getSelectionAmount)).getD 0
  weight := s.weight - (s.indices.head?.map (valueAt pool OutputGroup.weight)).getD 0
  waste := s.waste - (s.indices.head?.map (valueAt pool OutputGroup.waste)).getD 0
  amount_eq := by rw [s.amount_eq, sub_head_eq_total_tail]
  weight_eq := by rw [s.weight_eq, sub_head_eq_total_tail]
  waste_eq := by rw [s.waste_eq, sub_head_eq_total_tail]

variable (pool) in
/-- The state of a search. -/
def walker : Walker (Selection pool) where
  selected := indices
  push := push
  pop := pop
  selected_push _ _ := rfl
  selected_pop _ := rfl

end Selection

/-! ### Ties -/

/-- Whether the group at an index has the amount of the one before it. -/
def sameAmount (pool : List OutputGroup) (i : Nat) : Bool :=
  valueAt pool getSelectionAmount (i - 1) == valueAt pool getSelectionAmount i

theorem sameAmount_iff {m : Nat} : sameAmount pool (m + 1) ↔
      valueAt pool getSelectionAmount m = valueAt pool getSelectionAmount (m + 1) := by
  rw [sameAmount, Nat.add_sub_cancel, beq_iff_eq]

/-! ### The amounts that are left -/

variable {groups groups' : List OutputGroup}

@[simp] theorem amountOf_nil : amountOf [] = 0 := rfl

@[simp] theorem weightOf_nil : weightOf [] = 0 := rfl

@[simp] theorem amountOf_cons (group : OutputGroup) (groups : List OutputGroup) :
    amountOf (group :: groups) = group.getSelectionAmount + amountOf groups := by
  rw [amountOf, map_cons, sum_cons, amountOf]

@[simp] theorem weightOf_cons (group : OutputGroup) (groups : List OutputGroup) :
    weightOf (group :: groups) = group.weight + weightOf groups := by
  rw [weightOf, map_cons, sum_cons, weightOf]

theorem amountOf_perm (h : groups.Perm groups') : amountOf groups = amountOf groups' :=
  (h.map _).sum_eq

theorem weightOf_perm (h : groups.Perm groups') : weightOf groups = weightOf groups' :=
  (h.map _).sum_eq

theorem wasteOf_perm (h : groups.Perm groups') : wasteOf groups = wasteOf groups' :=
  (h.map _).sum_eq

theorem amountOf_chosen (S : List Nat) : amountOf (chosen pool S) = total pool getSelectionAmount
    S := sum_chosen S

theorem weightOf_chosen (S : List Nat) : weightOf (chosen pool S) =
    total pool weight S := sum_chosen S

theorem wasteOf_chosen (S : List Nat) : wasteOf (chosen pool S) = total pool waste S := sum_chosen S

/-- The sums of the amounts behind each index, and the sum of all amounts. -/
def lookaheads : List OutputGroup → List Int × Int
  | [] => ([], 0)
  | group :: rest =>
    let (sums, totalAvailable) := lookaheads rest
    (totalAvailable :: sums, totalAvailable + group.getSelectionAmount)

theorem lookaheads_snd (pool : List OutputGroup) : (lookaheads pool).2 = amountOf pool := by
  induction pool with
  | nil => rfl
  | cons group rest ih =>
    rw [lookaheads, amountOf_cons, ← ih, add_comm]

theorem lookaheads_fst_getD (pool : List OutputGroup) (i : Nat) :
    (lookaheads pool).1.getD i 0 = amountOf (pool.drop (i + 1)) := by
  induction pool generalizing i with
  | nil => simp [lookaheads]
  | cons group rest ih =>
    cases i with
    | zero => rw [lookaheads, getD_cons_zero, lookaheads_snd, drop_succ_cons, drop_zero]
    | succ i => rw [lookaheads, getD_cons_succ, ih, drop_succ_cons]

private theorem amountOf_nonneg (hpos : ∀ group ∈ groups, 0 < group.getSelectionAmount) : 0 ≤
    amountOf groups := by
  have h := total_nonneg (l := groups) (fun group hgroup => le_of_lt (hpos group hgroup))
    (behind groups 0)
  rwa [total_behind] at h

private theorem weightOf_nonneg (hweight : ∀ group ∈ groups, 0 ≤ group.weight) : 0 ≤
    weightOf groups :=
  sum_nonneg (forall_mem_map.mpr hweight)

theorem amountOf_drop_nonneg (hpos : ∀ group ∈ pool, 0 < group.getSelectionAmount) (n : Nat) :
    0 ≤ amountOf (pool.drop n) :=
  amountOf_nonneg fun group hgroup => hpos group (mem_of_mem_drop hgroup)

theorem Selection.amount_nonneg (s : Selection pool)
    (hpos : ∀ group ∈ pool, 0 < group.getSelectionAmount) : 0 ≤ s.amount := by
  rw [s.amount_eq]
  exact total_nonneg (fun group hgroup => le_of_lt (hpos group hgroup)) _

theorem Selection.weight_nonneg (s : Selection pool) (hweight : ∀ group ∈ pool, 0 ≤ group.weight) :
    0 ≤ s.weight := by
  rw [s.weight_eq]
  exact total_nonneg hweight _

/-- A weight fits if there was room for the last group. -/
theorem Selection.int32Range_weight {s : Selection pool} {tail : Nat} {rest : List Nat}
    {maxSelectionWeight : Int} (hweight : ∀ group ∈ pool, 0 ≤ group.weight)
    (hs : s.indices = tail :: rest) (htail : tail < pool.length)
    (hroom : ∀ group ∈ pool, max 0 maxSelectionWeight + group.weight ≤ intMax)
    (hrest : total pool OutputGroup.weight rest ≤ max 0 maxSelectionWeight) :
    int32Range s.weight := by
  have hnonneg := s.weight_nonneg hweight
  have hlast := hroom _ (getElem_mem htail)
  have hsum := s.weight_eq
  rw [hs, total_cons, valueAt_of_lt htail] at hsum
  rw [intMax] at hlast
  rw [int32Range, Bool.and_eq_true, decide_eq_true_eq, decide_eq_true_eq]
  omega

theorem maxWeight_le_intMax {maxSelectionWeight : Int} (hweight : ∀ group ∈ pool, 0 ≤ group.weight)
    (hne : pool ≠ []) (hroom : ∀ group ∈ pool, max 0 maxSelectionWeight + group.weight ≤ intMax) :
    maxSelectionWeight ≤ intMax := by
  have hgroup := hweight _ (head_mem hne)
  have hfits := hroom _ (head_mem hne)
  omega

/-- The sums fit if the sum of all does. -/
theorem lookaheads_all_int64Range (hpos : ∀ group ∈ pool, 0 < group.getSelectionAmount)
    (hmax : amountOf pool < maxMoney) : ((lookaheads pool).2 :: (lookaheads pool).1).all
      int64Range := by
  induction pool with
  | nil => rfl
  | cons group rest ih =>
    obtain ⟨hgroup, hrest⟩ := forall_mem_cons.mp hpos
    rw [amountOf_cons] at hmax
    have hnonneg := amountOf_nonneg hrest
    have hfits : int64Range ((lookaheads rest).2 + group.getSelectionAmount) := by
      rw [lookaheads_snd, int64Range_iff]
      simp only [maxMoney, coin] at hmax
      omega
    rw [all_cons, Bool.and_eq_true]
    exact ⟨hfits, ih hrest (by omega)⟩

/-! ### The result -/

/-- Groups that share no output can be added one after the other, if their weights fit together. -/
theorem SelectionResult.addGroups_eq_ok (result : SelectionResult) (groups : List OutputGroup)
    (h : ((result.selectedInputs ++ groups.flatMap OutputGroup.outputs).map COutput.outpoint).Nodup)
    (hresult : 0 ≤ result.weight) (hgroups : ∀ group ∈ groups, 0 ≤ group.weight)
    (hfits : result.weight + weightOf groups ≤ intMax) :
    ∃ result', result.addGroups groups = .ok result' ∧
      result'.selectedInputs = result.selectedInputs ++ groups.flatMap OutputGroup.outputs ∧
      result'.weight = result.weight + weightOf groups ∧ result'.target = result.target := by
  induction groups generalizing result with
  | nil => exact ⟨result, rfl, by simp, by simp [weightOf], rfl⟩
  | cons group rest ih =>
    rw [flatMap_cons, ← append_assoc] at h
    have hdistinct : ((result.selectedInputs ++ group.outputs).map COutput.outpoint).Nodup := by
      rw [map_append] at h
      exact (nodup_append.mp h).1
    obtain ⟨hgroup, hrest⟩ := forall_mem_cons.mp hgroups
    have hnonneg := weightOf_nonneg hrest
    rw [weightOf_cons, ← add_assoc] at hfits
    have hint : int32Range (result.weight + group.weight) := by
      rw [intMax] at hfits
      rw [int32Range, Bool.and_eq_true, decide_eq_true_eq, decide_eq_true_eq]
      omega
    obtain ⟨result', hadd, hinputs, hweight, htarget⟩ := ih
      { result with selectedInputs := result.selectedInputs ++ group.outputs, distinct := hdistinct
                    useEffective := !group.subtractFeeOutputs, weight :=
                    result.weight + group.weight } h
      (add_nonneg hresult hgroup) hrest hfits
    refine ⟨result', ?_, ?_, ?_, htarget⟩
    · rw [addGroups, addInput, insertInputs, dif_pos hdistinct]
      change ((addWeight result.weight group.weight >>= _) >>= _) = _
      rw [addWeight, if_pos hint]
      exact hadd
    · rw [hinputs, flatMap_cons, append_assoc]
    · rw [hweight, weightOf_cons, add_assoc]

/-- The result once a search has ended: an error, or the groups that it has found. -/
def toResult (pool : List OutputGroup) (algo : SelectionAlgorithm) (selectionTarget : Int)
    (selection : List Nat) (maxTxWeightExceeded completed : Bool) (evaluated : Nat) :
    Except SelectionError SelectionResult :=
  if selection = [] then .error (errorNotFound maxTxWeightExceeded)
  else
    SelectionResult.addGroups
      { SelectionResult.empty selectionTarget
        algo with algoCompleted := completed, selectionsEvaluated := evaluated }
      (chosen pool selection)

/-- What a search has to return: the groups of a part that is no worse than any other one, or an
error with a message if there is none. -/
def ReturnsBest (Admits : List OutputGroup → Prop)
    (NoWorse : List OutputGroup → List OutputGroup → Prop)
    (returned : Except SelectionError SelectionResult) : Prop :=
  ((∃ result, returned = .ok result) ↔ ∃ groups, Admits groups) ∧
  (∀ e, returned = .error e → ∃ message, e = .error message) ∧
  ∀ result, returned = .ok result → ∃ groups, Admits groups ∧
    result.selectedInputs = groups.flatMap OutputGroup.outputs ∧ result.weight = weightOf groups ∧
    ∀ other, Admits other → NoWorse groups other

section ReturnsBest

variable {Admits : List OutputGroup → Prop} {NoWorse : List OutputGroup → List OutputGroup → Prop}

theorem ReturnsBest.of_error (message : String) (h : ∀ groups, ¬ Admits groups) :
    ReturnsBest Admits NoWorse (.error (.error message)) := by
  refine ⟨⟨?_, ?_⟩, ?_, nofun⟩
  · rintro ⟨result, ⟨⟩⟩
  · rintro ⟨groups, hgroups⟩
    exact absurd hgroups (h groups)
  · rintro _ ⟨⟩
    exact ⟨message, rfl⟩

/-- A result is no worse than a part that will do. -/
theorem ReturnsBest.exists_le {returned : Except SelectionError SelectionResult}
    (h : ReturnsBest Admits NoWorse returned) (groups : List OutputGroup)
    (hgroups : Admits groups) :
    ∃ result best, returned = .ok result ∧ Admits best ∧ result.selectedInputs =
      best.flatMap OutputGroup.outputs ∧ result.weight = weightOf best ∧ NoWorse best groups := by
  obtain ⟨result, hok⟩ := h.1.mpr ⟨groups, hgroups⟩
  obtain ⟨best, hbest, hinputs, hweight, hleast⟩ := h.2.2 result hok
  exact ⟨result, best, hok, hbest, hinputs, hweight, hleast groups hgroups⟩

/-- The best selection of a search is returned if it is no worse than any part that will do. -/
theorem returnsBest_toResult {selection : List Nat}
    (hdistinct : ((pool.flatMap OutputGroup.outputs).map COutput.outpoint).Nodup)
    (hweight : ∀ group ∈ pool, 0 ≤ group.weight)
    (hfits : ∀ groups, Admits groups → weightOf groups ≤ intMax)
    (hsel : IsSelection pool.length selection)
    (hadmits : selection ≠ [] → Admits (chosen pool selection))
    (hbest : ∀ other, Admits other → selection ≠ [] ∧ NoWorse (chosen pool selection) other)
    (algo : SelectionAlgorithm) (selectionTarget : Int) (maxTxWeightExceeded completed : Bool)
    (evaluated : Nat) : ReturnsBest Admits NoWorse
      (toResult pool algo selectionTarget selection maxTxWeightExceeded completed evaluated) := by
  by_cases hne : selection = []
  · rw [toResult, if_pos hne]
    cases maxTxWeightExceeded <;> exact ReturnsBest.of_error _ fun groups hgroups =>
      (hbest groups hgroups).1 hne
  · -- groups that share no output become a result
    have hsub := ((chosen_sublist hsel).flatMap outputs).map COutput.outpoint
    have hroom := hfits _ (hadmits hne)
    obtain ⟨result, hadd, hinputs, hweight, -⟩ := SelectionResult.addGroups_eq_ok
      { SelectionResult.empty selectionTarget
        algo with algoCompleted := completed, selectionsEvaluated := evaluated }
      (chosen pool selection) (hdistinct.sublist hsub) (le_refl 0)
      (fun group hgroup => hweight group ((chosen_sublist hsel).subset hgroup))
        ((zero_add _).trans_le hroom)
    rw [toResult, if_neg hne, hadd]
    refine ⟨⟨fun _ => ⟨_, hadmits hne⟩, fun _ => ⟨result, rfl⟩⟩, nofun, ?_⟩
    rintro _ ⟨⟩
    exact ⟨_, hadmits hne, hinputs, hweight.trans (zero_add _), fun other hother =>
      (hbest other hother).2⟩

end ReturnsBest

def OutputGroup.ofCoin (n : UInt32) (amount fee longTermFee weight : Int) : OutputGroup where
  outputs := [⟨⟨Blob.null 32, n⟩, ⟨amount + fee, []⟩, 1, weight, true, true, 0, false, amount, fee,
    longTermFee, 0⟩]
  fromMe := false
  value := amount + fee
  depth := 1
  ancestors := 0
  maxClusterCount := 0
  effectiveValue := amount
  fee := fee
  longTermFee := longTermFee
  longTermFeerate := ⟨longTermFee, 1⟩
  subtractFeeOutputs := false
  weight := weight

/-! ## The search for a selection without change

`SelectCoinsBnB`. A selection may exceed the target by no more than a change output would cost.
Among those, the search looks for the one of least waste: what its inputs cost more now than later,
and what it exceeds the target by.
-/

/-- The best selection so far. -/
structure LeastWaste where
  selection : List Nat
  waste : Int
  maxTxWeightExceeded : Bool
  deriving DecidableEq

namespace BranchAndBound

variable (pool : List OutputGroup) (selectionTarget costOfChange maxSelectionWeight : Int)
  (isFeerateHigh : Bool)

/-- The evaluation of a selection whose last group is `tail`. -/
def evaluate (s : Selection pool) (tail : Nat) (best : LeastWaste) :
    Option (Decision × LeastWaste) :=
  if s.amount + (lookaheads pool).1.getD tail 0 < selectionTarget then
    -- insufficient funds with what is left
    some (.cut, best)
  else if maxSelectionWeight < s.weight then some
    (.shift, { best with maxTxWeightExceeded := true })
  else if !int64Range (selectionTarget + costOfChange) then none
  else if selectionTarget + costOfChange < s.amount then some (.shift, best)
  else if isFeerateHigh && decide (best.waste < s.waste) then some (.shift, best)
  else if selectionTarget ≤ s.amount then
    -- the selection is within the target window
    let currExcess := s.amount - selectionTarget
    let currWaste := s.waste + currExcess
    if int64Range currExcess && int64Range currWaste then
      some (.shift, if currWaste ≤
        best.waste then { best with selection := s.indices, waste := currWaste } else best)
    else none
  else some (.explore, best)

/-- A round of the search, once the next group was selected. -/
def round (s : Selection pool) (best : LeastWaste) : Option (Decision × LeastWaste) :=
  match s.indices with
  | [] => none
  | tail :: _ =>
    if [s.amount, valueAt pool OutputGroup.waste tail, s.waste,
        s.amount + (lookaheads pool).1.getD tail 0].all int64Range && int32Range s.weight then
      evaluate pool selectionTarget costOfChange maxSelectionWeight isFeerateHigh s tail best
    else none

/-- The loop of `SelectCoinsBnB` over a sorted pool. -/
def search : Outcome LeastWaste :=
  run (Selection.walker pool) pool.length (sameAmount pool)
    (round pool selectionTarget costOfChange maxSelectionWeight isFeerateHigh) totalTries
      (Selection.empty pool) 0
    ⟨[], maxMoney, false⟩

end BranchAndBound

def selectCoinsBnB (sort : StdSort descending) (utxoPool : List OutputGroup)
    (selectionTarget costOfChange : Int) (maxSelectionWeight : Int) :
    Except SelectionError SelectionResult :=
  let pool := sort.sort utxoPool
  let (sums, totalAvailable) := lookaheads pool
  -- the sums are made with an `int` for the index
  if !((totalAvailable :: sums).all int64Range && decide ((pool.length : Int) ≤ intMax)) then .error
    .overflow
  else if totalAvailable < selectionTarget then .error (.error "")
  else
    match pool with
    | [] => .error .outOfRange
    | first :: _ =>
      -- the feerate is compared with the long-term feerate by the fees of the first group
      let isFeerateHigh := decide (first.longTermFee < first.fee)
      match BranchAndBound.search pool selectionTarget costOfChange maxSelectionWeight
        isFeerateHigh with
      | .failed => .error .overflow
      | .completed best left =>
        toResult pool .bnb selectionTarget best.selection best.maxTxWeightExceeded true
          (totalTries - left)
      | .stopped best =>
        toResult pool .bnb selectionTarget best.selection best.maxTxWeightExceeded false totalTries

/-! ### What an evaluation can do -/

namespace BranchAndBound

section Evaluated

variable {pool : List OutputGroup} (selectionTarget costOfChange maxSelectionWeight : Int)
  (isFeerateHigh : Bool) (s : Selection pool) (tail : Nat) (best : LeastWaste)

/-- Everything that an evaluation can decide, and the best selection after it. -/
inductive Evaluated : Decision → LeastWaste → Prop
  | short (h : s.amount + amountOf (pool.drop (tail + 1)) < selectionTarget) : Evaluated .cut best
  | heavy (h : maxSelectionWeight < s.weight) : Evaluated .shift
    { best with maxTxWeightExceeded := true }
  | overshot (h : selectionTarget + costOfChange < s.amount) : Evaluated .shift best
  | wasteful (hhigh : isFeerateHigh = true) (h : best.waste < s.waste) : Evaluated .shift best
  | better (hweight : s.weight ≤ maxSelectionWeight) (h : selectionTarget ≤ s.amount)
    (h' : s.amount ≤ selectionTarget + costOfChange)
    (hbetter : s.waste + (s.amount - selectionTarget) ≤ best.waste) :
    Evaluated .shift
      { best with selection := s.indices, waste := s.waste + (s.amount - selectionTarget) }
  | worse (hworse : best.waste < s.waste + (s.amount - selectionTarget))
    (h : selectionTarget ≤ s.amount) : Evaluated .shift best
  | explore (h : s.amount < selectionTarget) (hweight : s.weight ≤ maxSelectionWeight) :
    Evaluated .explore best

variable {selectionTarget costOfChange maxSelectionWeight isFeerateHigh s tail best} {d : Decision}
  {best' : LeastWaste}

theorem evaluated_of_evaluate
    (h : evaluate pool selectionTarget costOfChange maxSelectionWeight isFeerateHigh s tail best =
      some (d, best')) :
    Evaluated selectionTarget costOfChange maxSelectionWeight isFeerateHigh s tail
      best d best' := by
  unfold evaluate at h
  rw [lookaheads_fst_getD] at h
  split at h
  next hshort =>
    cases h
    exact .short hshort
  split at h
  next hheavy =>
    cases h
    exact .heavy hheavy
  split at h
  next => cases h
  split at h
  next hover =>
    cases h
    exact .overshot hover
  split at h
  next hwaste =>
    rw [Bool.and_eq_true, decide_eq_true_eq] at hwaste
    cases h
    exact .wasteful hwaste.1 hwaste.2
  split at h
  next hreached =>
    dsimp only at h
    split at h
    next =>
      cases h
      split
      next hbetter => exact .better (by omega) hreached (by omega) hbetter
      next => exact .worse (by omega) hreached
    next => cases h
  next =>
    cases h
    exact .explore (by omega) (by omega)

theorem exists_evaluated
    (h : round pool selectionTarget costOfChange maxSelectionWeight isFeerateHigh s best =
      some (d, best')) :
    ∃ tail rest, s.indices = tail :: rest ∧
      Evaluated selectionTarget costOfChange maxSelectionWeight isFeerateHigh s tail
        best d best' := by
  unfold round at h
  split at h
  · cases h
  next tail rest hs =>
    split at h
    · exact ⟨tail, rest, hs, evaluated_of_evaluate h⟩
    · cases h

end Evaluated

end BranchAndBound

/-! ## The search for the lightest selection

`CoinGrinder`. The groups are searched in the order of their amounts, and lighter ones come first
among groups of the same amount. An addition or a product that does not fit into its type stops the
search.
-/

/-- The least weights behind each index, and the least weight of all. -/
def minTailWeights : List OutputGroup → List Int × Int
  | [] => ([], intMax)
  | group :: rest =>
    let (weights, minGroupWeight) := minTailWeights rest
    (minGroupWeight :: weights, min minGroupWeight group.weight)

/-- The best selection so far. -/
structure Lightest where
  selection : List Nat
  weight : Int
  amount : Int
  maxTxWeightExceeded : Bool
  deriving DecidableEq

namespace CoinGrinder

variable (pool) (totalTarget maxSelectionWeight : Int)

/-- Where to go on once a selection cannot get light enough. If its last group had the least weight,
then replacing it does not help either. -/
def cutOrShift (tail : Nat) : Decision :=
  if valueAt pool OutputGroup.weight tail ≤ (minTailWeights pool).1.getD tail 0 then .cut
  else .shift

variable (s : Selection pool)

/-- What a selection weighs at least once it has the amount that is missing. -/
def leastWeight (tail : Nat) : Option Int :=
  let amount := valueAt pool getSelectionAmount tail
  let missing := totalTarget - s.amount
  let groups := (missing + amount - 1).tdiv amount
  let weight := (minTailWeights pool).1.getD tail 0 * groups
  if amount ≠ 0 ∧ [missing, missing + amount, missing + amount - 1, groups, weight, s.weight +
    weight].all int64Range then some (s.weight + weight)
  else none

/-- The evaluation of a selection whose last group is `tail`. -/
def evaluate (tail : Nat) (best : Lightest) : Option (Decision × Lightest) :=
  if s.amount + (lookaheads pool).1.getD tail 0 < totalTarget then
    -- insufficient funds with what is left
    some (.cut, best)
  else if best.weight < s.weight then
    some (cutOrShift pool tail,
      { best with maxTxWeightExceeded := best.maxTxWeightExceeded || decide (maxSelectionWeight <
        s.weight) })
  else if totalTarget ≤ s.amount then
    some (.shift, if s.weight < best.weight ∨ (s.weight = best.weight ∧ s.amount < best.amount) then
        { best with selection := s.indices, weight := s.weight, amount := s.amount }
      else best)
  else if best.selection = [] then some (.explore, best)
  else
    -- whether a better weight is still possible
    match leastWeight pool totalTarget s tail with
    | none => none
    | some least => some (if best.weight < least then cutOrShift pool tail else .explore, best)

/-- A round of the search, once the next group was selected. -/
def round (best : Lightest) : Option (Decision × Lightest) :=
  match s.indices with
  | [] => none
  | tail :: _ =>
    if int64Range s.amount && int32Range s.weight &&
      int64Range (s.amount + (lookaheads pool).1.getD tail 0) then
      evaluate pool totalTarget maxSelectionWeight s tail best
    else none

/-- The loop of `CoinGrinder` over a sorted pool. -/
def search : Outcome Lightest :=
  run (Selection.walker pool) pool.length (sameAmount pool)
    (round pool totalTarget maxSelectionWeight) totalTries
    (Selection.empty pool) 0 ⟨[], maxSelectionWeight, maxMoney, false⟩

end CoinGrinder

def coinGrinder (sort : StdSort descendingEffvalWeight) (utxoPool : List OutputGroup)
    (selectionTarget changeTarget : Int) (maxSelectionWeight : Int) :
    Except SelectionError SelectionResult :=
  let pool := sort.sort utxoPool
  let (sums, totalAvailable) := lookaheads pool
  if !((totalAvailable :: sums).all int64Range &&
    int64Range (selectionTarget + changeTarget)) then .error .overflow
  else if totalAvailable < selectionTarget + changeTarget then .error (.error "")
  else if pool = [] then .error .outOfRange
  else
    match CoinGrinder.search pool (selectionTarget + changeTarget) maxSelectionWeight with
    | .failed => .error .overflow
    | .completed best left =>
      toResult pool .cg selectionTarget best.selection best.maxTxWeightExceeded true
        (totalTries - left)
    | .stopped best =>
      toResult pool .cg selectionTarget best.selection best.maxTxWeightExceeded false totalTries

/-! ### The least weights -/

theorem minTailWeights_snd_le {group : OutputGroup} (h : group ∈ pool) :
    (minTailWeights pool).2 ≤ group.weight := by
  induction pool with
  | nil => cases h
  | cons first rest ih =>
    rcases mem_cons.mp h with rfl | h
    · exact min_le_right ..
    · exact le_trans (min_le_left ..) (ih h)

theorem minTailWeights_snd_pos (h : ∀ group ∈ pool, 0 < group.weight) : 0 <
    (minTailWeights pool).2 := by
  induction pool with
  | nil => decide
  | cons first rest ih =>
    have hfirst := h first mem_cons_self
    have hrest := ih fun group hgroup => h group (mem_cons_of_mem first hgroup)
    exact Int.lt_min.mpr ⟨hrest, hfirst⟩

theorem minTailWeights_fst_getD {i : Nat} (hi : i < pool.length) :
    (minTailWeights pool).1.getD i 0 = (minTailWeights (pool.drop (i + 1))).2 := by
  induction pool generalizing i with
  | nil => cases hi
  | cons group rest ih =>
    cases i with
    | zero => rw [minTailWeights, getD_cons_zero, drop_succ_cons, drop_zero]
    | succ i => rw [minTailWeights, getD_cons_succ, ih (Nat.lt_of_succ_lt_succ hi), drop_succ_cons]

/-! ### What an evaluation can do -/

namespace CoinGrinder

section Evaluated

variable (totalTarget : Int) (s : Selection pool) (tail : Nat) (best : Lightest)

/-- What the estimate of `CoinGrinder` says: the groups behind `tail` that are needed at least, each
of the least weight. -/
def estimate : Int :=
  (minTailWeights pool).1.getD tail 0 *
    (totalTarget - s.amount + valueAt pool getSelectionAmount tail - 1).tdiv
      (valueAt pool getSelectionAmount tail)

/-- Everything that an evaluation can decide, and the best selection after it. -/
inductive Evaluated : Decision → Lightest → Prop
  | short (h : s.amount + amountOf (pool.drop (tail + 1)) < totalTarget) : Evaluated .cut best
  | heavy (exceeded : Bool) (h : best.weight < s.weight) :
    Evaluated (cutOrShift pool tail) { best with maxTxWeightExceeded := exceeded }
  | better (h : totalTarget ≤ s.amount)
    (hbetter : s.weight < best.weight ∨ (s.weight = best.weight ∧ s.amount < best.amount)) :
    Evaluated .shift { best with selection := s.indices, weight := s.weight, amount := s.amount }
  | worse (h : totalTarget ≤ s.amount) (hweight : s.weight = best.weight)
    (hamount : best.amount ≤ s.amount) : Evaluated .shift best
  | explore (h : s.amount < totalTarget) (hweight : s.weight ≤ best.weight) :
    Evaluated .explore best
  | hopeless (h : s.amount < totalTarget) (hne : best.selection ≠ [])
    (hleast : best.weight < s.weight + estimate totalTarget s tail) :
    Evaluated (cutOrShift pool tail) best

variable {totalTarget s tail best} {maxSelectionWeight : Int} {rest : List Nat} {d : Decision}
  {best' : Lightest}

private theorem leastWeight_eq_some {least : Int}
    (h : leastWeight pool totalTarget s tail = some least) :
    least = s.weight + estimate totalTarget s tail := by
  unfold leastWeight at h
  dsimp only at h
  split at h
  · cases h
    rfl
  · cases h

theorem evaluated_of_evaluate
    (h : evaluate pool totalTarget maxSelectionWeight s tail best = some (d, best')) :
    Evaluated totalTarget s tail best d best' := by
  unfold evaluate at h
  rw [lookaheads_fst_getD] at h
  split at h
  next hshort =>
    cases h
    exact .short hshort
  split at h
  next hheavy =>
    cases h
    exact .heavy _ hheavy
  split at h
  next hreached =>
    cases h
    split
    next hbetter => exact .better hreached hbetter
    next => exact .worse hreached (by omega) (by omega)
  split at h
  next =>
    cases h
    exact .explore (by omega) (by omega)
  next hsome =>
    split at h
    next => cases h
    next least hleast =>
      obtain rfl := leastWeight_eq_some hleast
      cases h
      split
      next hhopeless => exact .hopeless (by omega) hsome hhopeless
      next => exact .explore (by omega) (by omega)

theorem exists_evaluated (h : round pool totalTarget maxSelectionWeight s best = some (d, best')) :
    ∃ tail rest, s.indices = tail :: rest ∧ Evaluated totalTarget s tail best d best' := by
  unfold round at h
  split at h
  · cases h
  next tail rest hs =>
    split at h
    · exact ⟨tail, rest, hs, evaluated_of_evaluate h⟩
    · cases h

end Evaluated

end CoinGrinder

end Tessera.Wallet
