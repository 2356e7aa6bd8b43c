import Tessera.Wallet.CreatedTransaction

/-!
# Selections pass the assertion of their waste

`ChooseSelectionResult` computes the waste of what the algorithms return, and `RecalculateWaste`
asserts that a selection without change reaches its target. The algorithms count groups, the
assertion counts coins: for groups that were made by inserting coins the two are the same, and a
discount on bump fees only adds to them.
-/

namespace Tessera.Wallet

open Lib.Comp SelectionResult

/-- A group as the wallet makes it: coins are inserted into an empty one. -/
inductive OutputGroup.Made (subtractFeeOutputs : Bool) : OutputGroup → Prop
  | new (longTermFeerate : Policy.CFeeRate) : Made subtractFeeOutputs
    (.new longTermFeerate subtractFeeOutputs)
  | insert {group : OutputGroup} (h : Made subtractFeeOutputs group) (output : COutput)
    (ancestors clusterCount : Nat) :
    Made subtractFeeOutputs (group.insert output ancestors clusterCount)

section Made

variable {sffo : Bool} {group : OutputGroup} {groups : List OutputGroup}

theorem OutputGroup.Made.fees (h : group.Made sffo) : group.subtractFeeOutputs = sffo := by
  induction h with
  | new => rfl
  | insert _ _ _ _ ih => exact ih

/-- What a coin counts for. -/
def COutput.amount (subtractFeeOutputs : Bool) (coin : COutput) : Int :=
  if subtractFeeOutputs then coin.txout.nValue else coin.effectiveValue

/-- A group is worth what its coins are worth. -/
theorem OutputGroup.Made.amount (h : group.Made sffo) :
    group.getSelectionAmount = (group.outputs.map (COutput.amount sffo)).sum := by
  induction h with
  | new => cases sffo <;> rfl
  | insert h output _ _ ih =>
    -- the long-term fee that is set on insertion counts for nothing here
    rw [getSelectionAmount, h.fees] at ih
    rw [getSelectionAmount, OutputGroup.insert, h.fees, List.map_append, List.sum_append, ← ih]
    cases sffo <;> simp [COutput.amount]

private theorem amountOf_made (h : ∀ group ∈ groups, group.Made sffo) :
    amountOf groups = ((groups.flatMap OutputGroup.outputs).map (COutput.amount sffo)).sum := by
  induction groups with
  | nil => rfl
  | cons group rest ih =>
    obtain ⟨hgroup, hrest⟩ := List.forall_mem_cons.mp h
    rw [amountOf_cons, hgroup.amount, ih hrest, List.flatMap_cons, List.map_append, List.sum_append]

end Made

section Assertion

variable {bounded : Prop} {target discount : Int} {params : CoinSelectionParams}
  {result discounted : SelectionResult}

/-- The selected value of a result, as `RecalculateWaste` compares it with the target. -/
def SelectionResult.selected (result : SelectionResult) : Int :=
  if result.useEffective then result.getSelectedEffectiveValue else result.getSelectedValue

private theorem Delivered.target_le_selected {sffo : Bool}
    (h : Delivered (OutputGroup.Made sffo) bounded target result)
    (hbounded : bounded) : result.target ≤ result.selected ∧ result.bumpFeeGroupDiscount = 0 := by
  obtain ⟨groups, hgroups, hmade, hamount⟩ := h
  refine ⟨?_, hmade.undiscounted⟩
  have hreached := hamount hbounded
  rw [amountOf_made hgroups, ← hmade.inputs] at hreached
  rw [hmade.target, selected, getSelectedEffectiveValue, hmade.undiscounted,
    getSelectedValue, add_zero]
  rcases hmade.useEffective with rfl | ⟨group, hgroup, heffective⟩
  · rw [hmade.inputs] at hreached ⊢
    simpa using hreached
  · rw [heffective, (hgroups group hgroup).fees]
    cases sffo <;> exact hreached

private theorem target_le_applyDiscount
    (h : result.target ≤ result.selected ∧ result.bumpFeeGroupDiscount = 0)
    (hok : applyDiscount discount result = .ok discounted) : discounted.target ≤
      discounted.selected := by
  rw [applyDiscount] at hok
  split at hok
  · cases hok
    exact h.1
  rw [setBumpFeeDiscount] at hok
  split at hok
  next hdiscount =>
    cases hok
    refine le_trans h.1 ?_
    simp only [selected, getSelectedEffectiveValue, getSelectedValue]
    split <;> omega
  · cases hok

/-- The waste of a selection that reaches its target can be computed. -/
theorem recalculate_ok (h : result.target ≤ result.selected) (hne : result.selectedInputs ≠ []) :
    ∃ recalculated, recalculate params result = .ok recalculated := by
  rw [recalculate, recalculateWaste, if_neg hne]
  split
  · exact ⟨_, rfl⟩
  · exact ⟨_, if_pos h⟩

end Assertion

namespace SpendExample

/-- A coin in a group of its own, which counts in full. -/
def single (n : UInt32) (value : Int) : OutputGroup :=
  (OutputGroup.new ⟨1000, 1000⟩ true).insert
    (.new ⟨.null 32, n⟩ ⟨value, []⟩ 6 68 true true 0 true ⟨1000, 1000⟩) 0 0

/-- Three coins, of which two are needed. -/
def threeCoins : List OutputGroup := [single 0 400000, single 1 300000, single 2 200000]

end SpendExample

end Tessera.Wallet
