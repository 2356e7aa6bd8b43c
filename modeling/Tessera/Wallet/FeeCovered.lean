import Tessera.Wallet.CreatedTransaction

/-!
# Whether the fee is covered

The target of a selection is made of fees for parts of the transaction: what is not an input, each
input, and the change. The fee that is needed in the end is that of the whole. A single byte is
planned for the number of inputs, and for the number of outputs as many bytes as the recipients
alone need. While the counts fit, the fees of the parts cover that of the whole. Beyond that
`CreateTransactionInternal` may report an internal bug.
-/

namespace Tessera.Wallet

open Lib Lib.Comp Policy Script Tx List

variable {P : Primitives} {cc : CCoinControl} {vecSend : List CRecipient} {plan : FundingPlan}
  {result : SelectionResult} {draft : Draft}

/-! ### Errors that are not internal bugs -/

/-- An error other than an internal bug. -/
def CreateError.Ordinary : CreateError → Prop
  | .internalBug _ => False
  | _ => True

/-- A result that is not an internal bug. -/
def Plain {α : Type} (outcome : Except CreateError α) : Prop :=
  ∀ e, outcome = .error e → e.Ordinary

section Ordinary

variable {α β : Type} {e : CreateError} {message : String}

@[simp] theorem plain_ok (a : α) : Plain (.ok a) := fun e h => by cases h

@[simp] theorem plain_error : Plain (.error e : Except CreateError α) ↔ e.Ordinary := by
  refine ⟨fun h => h e rfl, fun h e' he => ?_⟩
  cases he
  exact h

theorem Plain.bind {x : Except CreateError α} {f : α → Except CreateError β} (hx : Plain x)
    (hf : ∀ a, Plain (f a)) : Plain (x >>= f) := by
  cases x with
  | error e => exact plain_error.mpr (hx e rfl)
  | ok a => exact hf a

private theorem not_ordinary_internalBug : ¬ (CreateError.internalBug message).Ordinary := id

attribute [local simp] CreateError.Ordinary

variable {R : RandomSource} {sorts : Sorts} {wallet : SpendWallet} {feerate : CFeeRate}
  {sign : Bool} {newDestination : Except String CTxDestination}
  {outpoint : COutPoint} {rnd : Nat → CKeyID → Uint256} {tx : CTransaction}

private theorem plain_orAbort (outcome : Except SelectionError α) : Plain (orAbort outcome) := by
  cases outcome <;> simp [orAbort]

private theorem plain_addRecipients {dustRelayFee : CFeeRate} {recipients : List CRecipient}
    {sums : Int × Int} : Plain (addRecipients dustRelayFee recipients sums) := by
  induction recipients generalizing sums with
  | nil => exact plain_ok _
  | cons recipient rest ih =>
    rw [addRecipients]
    split_ifs <;> simp [ih]

private theorem plain_changeScript : Plain (changeScript cc newDestination) := by
  rw [changeScript.eq_def]
  split
  · split
    · exact plain_ok _
    dsimp only
    split_ifs <;> simp
  · exact plain_ok _

private theorem plain_checkFeerate {reason : FeeReason} :
    Plain (checkFeerate wallet cc feerate reason) := by
  rw [checkFeerate]
  split_ifs <;> simp

private theorem fails_planFunding : Fails CreateError.Ordinary
    (planFunding R wallet cc vecSend newDestination) := by
  refine fails_bind (fails_require _ trivial) fun _ => ?_
  refine fails_bind (fails_ofExcept plain_addRecipients) fun sums => ?_
  refine fails_bind (fails_ofExcept plain_changeScript) fun script => ?_
  refine fails_bind (fails_ofExcept plain_checkFeerate) fun _ => ?_
  refine fails_bind (fails_require _ trivial) fun _ => ?_
  refine fails_bind (fails_act _) fun minChangeTarget => ?_
  exact fails_bind (fails_require _ trivial) fun _ => fails_pure _

private theorem plain_fetchOutput {inputBytes : Int} :
    Plain (fetchOutput wallet cc outpoint inputBytes) := by
  rw [fetchOutput]
  split
  · dsimp only
    split_ifs <;> simp
  · split <;> simp

private theorem plain_presetCoin {fetched : CTxOut × Int} :
    Plain (presetCoin cc feerate outpoint fetched) := by
  rw [presetCoin]
  split_ifs <;> simp

private theorem plain_fetchInputs {bumpFees : COutPoint → Int} {outpoints : List COutPoint}
    {coins : CoinsResult} :
    Plain (outpoints.foldlM (fetchInput wallet cc feerate bumpFees) coins) := by
  induction outpoints generalizing coins with
  | nil => exact plain_ok _
  | cons outpoint rest ih =>
    refine .bind (plain_fetchOutput.bind fun fetched => ?_) fun next => ih
    exact plain_presetCoin.bind fun coin => (plain_orAbort _).bind fun bumped => plain_ok _

private theorem fails_selectFunds : Fails CreateError.Ordinary
    (selectFunds P R sorts wallet cc plan) := by
  refine fails_bind (fails_ofExcept ?_) fun preset => ?_
  · rw [presetCoins]
    split
    · exact plain_fetchInputs
    · exact plain_ok _
  · refine fails_bind (fails_ofExcept (plain_orAbort _)) fun available => ?_
    rintro rng e rng' he
    obtain ⟨herror, -⟩ := Prod.mk.inj he
    generalize (selectCoins R sorts wallet.chain _ available preset _ _ _ rng).1 = outcome at herror
    rcases outcome with selection | result
    · cases selection with
      | error message =>
        -- an error without a message is one of the two general ones
        cases herror
        split
        · rw [insufficientFunds]
          split <;> trivial
        · trivial
      | _ =>
        cases herror
        trivial
    · cases herror

private theorem fails_assemble {changePos : Option Nat} :
    Fails CreateError.Ordinary (assemble R wallet cc vecSend changePos plan result) := by
  have houtputs : ∀ amount, Fails CreateError.Ordinary
      (assembleOutputs R vecSend changePos plan amount) := by
    intro amount
    refine fails_ite (fails_bind ?_ fun pos => fails_pure _) (fails_pure _)
    cases changePos with
    | none => exact fails_act _
    | some pos => exact fails_ite (fails_throw trivial) (fails_pure _)
  have hlocktime : ∀ vin, Fails CreateError.Ordinary (chooseLocktime R wallet cc vin) := by
    intro vin
    rw [chooseLocktime]
    split
    · exact fails_pure _
    refine fails_ite (fails_pure _) ?_
    refine fails_bind (fails_require _ trivial) fun _ => ?_
    refine fails_bind (fails_act _) fun locktime => ?_
    refine fails_bind (fails_require _ trivial) fun _ => ?_
    exact fails_bind (fails_require _ trivial) fun _ => fails_pure _
  refine fails_bind (houtputs _) fun outputs => ?_
  refine fails_bind (fails_act _) fun coins => ?_
  exact fails_bind (hlocktime _) fun locktime => fails_pure _

private theorem plain_draftSize : Plain (draftSize wallet cc draft) := by
  refine (plain_orAbort _).bind fun size => ?_
  split <;> simp

private theorem plain_checkChange : Plain (checkChange plan draft) := by
  rw [checkChange]
  split <;> simp

private theorem plain_signIfAsked : Plain (signIfAsked P wallet sign rnd tx) := by
  rw [signIfAsked]
  split
  · split <;> simp
  · exact plain_ok _

private theorem plain_checkCreated {size : TxSize} {fee : Int} :
    Plain (checkCreated wallet sign size tx fee) := by
  rw [checkCreated]
  generalize (if sign = true then getTransactionWeight tx else size.weight) = weight
  split
  · simp
  split
  · simp
  split <;> simp

private theorem finish_internalBug_iff :
    finish P wallet cc vecSend sign rnd plan result draft = .error (.internalBug message) ↔
      ∃ size, draftSize wallet cc draft = .ok size ∧
        settleFees wallet vecSend result.getSelectedValue (neededFee plan result size) draft =
          .error (.internalBug message) := by
  refine (except_bind_eq_error_iff plain_draftSize not_ordinary_internalBug).trans ?_
  refine exists_congr fun size => and_congr_right fun _ => ?_
  generalize settleFees wallet vecSend _ _ draft = outcome
  cases outcome with
  | error e =>
    constructor
    · rintro ⟨⟩
      rfl
    · rintro ⟨⟩
      rfl
  | ok settled =>
    refine ⟨fun h => ?_, fun h => by cases h⟩
    -- nothing after that reports one
    refine absurd (Plain.bind plain_checkChange (fun _ => ?_) _ h) not_ordinary_internalBug
    exact plain_signIfAsked.bind fun tx => plain_checkCreated.bind fun _ => plain_ok _

end Ordinary

/-! ### The size of the transaction -/

/-- The size of a transaction to recipients with some inputs, and with change to a script or
without. What is not an input counts a single byte for the number of inputs, and as many for that of
the outputs as there are recipients. -/
def finalSize (vecSend : List CRecipient) (script : CScript) (inputs : Nat)
    (changed : Bool) : Int :=
  noinputsSize vecSend + inputs * maxP2WPKHInputWeight + (getSizeOfCompactSize inputs - 1) +
    if changed then outputSize ⟨0, script⟩ +
      (getSizeOfCompactSize (vecSend.length + 1) - getSizeOfCompactSize vecSend.length) else 0

/-- The size of an output does not depend on its amount. -/
theorem outputSize_eq (amount amount' : Int) (script : CScript) :
    outputSize ⟨amount, script⟩ = outputSize ⟨amount', script⟩ := by
  simp [outputSize, CTxOut.serialize, serializeInt64]

theorem sum_map_eq_length_mul {α : Type} {l : List α} {f : α → Int} {c : Int}
    (h : ∀ a ∈ l, f a = c) : (l.map f).sum = l.length * c := by
  induction l with
  | nil => exact (zero_mul c).symm
  | cons a rest ih =>
    rw [map_cons, sum_cons, h a mem_cons_self, ih fun b hb => h b (mem_cons_of_mem a hb),
      length_cons, Int.natCast_add, add_mul, Int.natCast_one, one_mul, add_comm]

private theorem getSizeOfCompactSize_pos (n : Nat) : 1 ≤ getSizeOfCompactSize n := by
  rw [getSizeOfCompactSize]
  split
  · decide
  · split
    · decide
    · split <;> decide

section Size

variable {wallet : SpendWallet} {coins : List COutput} {change : Change} {vout : List CTxOut}

section

variable (hrange : ∀ placed, change = some placed → placed.1 ≤ vout.length)

include hrange

private theorem length_placeChangeIn :
    (placeChangeIn change vout).length = vout.length + if change.isSome then 1 else 0 := by
  rcases change with _ | ⟨pos, txout⟩
  · rfl
  · exact length_insertIdx_of_le_length (hrange _ rfl) txout

private theorem sum_outputSize_placeChangeIn : ((placeChangeIn change vout).map outputSize).sum =
      (vout.map outputSize).sum + (change.map fun placed => outputSize placed.2).getD 0 := by
  rcases change with _ | ⟨pos, txout⟩
  · exact (add_zero _).symm
  · have hperm : (vout.insertIdx pos txout).Perm (txout :: vout) :=
      perm_insertIdx _ _ (hrange _ rfl)
    rw [placeChangeIn, (hperm.map outputSize).sum_eq, add_comm]
    rfl

end

/-- Whether a selection leaves change. -/
def hasChange (plan : FundingPlan) (result : SelectionResult) : Bool :=
  decide (0 < result.getChange plan.params.minViableChange plan.params.changeFee)

private theorem Assembled.isSome_change
    (h : Assembled wallet cc vecSend plan result coins change draft) :
    change.isSome = hasChange plan result := by
  rcases h.change with ⟨rfl, hle⟩ | ⟨pos, rfl, hpos⟩
  · exact (decide_eq_false (not_lt.mpr hle)).symm
  · exact (decide_eq_true hpos).symm

private theorem finalSize_nonneg (vecSend : List CRecipient) (script : CScript) (inputs : Nat)
    (changed : Bool) : 0 ≤ finalSize vecSend script inputs changed := by
  have houtputs : 0 ≤ (vecSend.map fun recipient => outputSize recipient.txout).sum :=
    sum_nonneg fun size hsize => by
      obtain ⟨recipient, -, rfl⟩ := mem_map.mp hsize
      exact Int.natCast_nonneg _
  have hinputs : (0 : Int) ≤ inputs * maxP2WPKHInputWeight :=
    mul_nonneg (Int.natCast_nonneg _) (by decide)
  have hcount := getSizeOfCompactSize_pos inputs
  have hbefore := getSizeOfCompactSize_pos vecSend.length
  have hafter := getSizeOfCompactSize_pos (vecSend.length + 1)
  have hchange : 0 ≤ outputSize ⟨0, script⟩ := Int.natCast_nonneg _
  rw [finalSize, noinputsSize]
  split <;> omega

variable {txouts : List CTxOut}

theorem spentOutputs_ne_nil {txin : CTxIn} {rest : List CTxIn}
    (h : spentOutputs wallet cc (txin :: rest) = .ok (some txouts)) : txouts.isEmpty = false := by
  have hmap : ∀ (txout : CTxOut) (found : Except SelectionError (Option (List CTxOut))),
      found.map (·.map (txout :: ·)) = .ok (some txouts) → txouts.isEmpty = false := by
    rintro txout (e | (_ | others)) heq <;> cases heq
    rfl
  rw [spentOutputs] at h
  split at h <;> split at h
  · cases h
  · exact hmap _ _ h
  · cases h
  · exact hmap _ _ h

private theorem Assembled.signedTxSizeOf_eq (hnone : ∀ outpoint, cc.getInputWeight outpoint = none)
    (h : Assembled wallet cc vecSend plan result coins change draft)
    (htxouts : txouts.isEmpty = false) : (signedTxSizeOf draft.tx txouts cc).weight =
      finalSize vecSend plan.scriptChange result.selectedInputs.length (hasChange plan result) := by
  have hrange : ∀ placed, change = some placed → placed.1 ≤
      (vecSend.map CRecipient.txout).length := by
    simpa using h.drafted.inRange
  have hvin : draft.tx.vin.length = result.selectedInputs.length := by
    rw [h.vin, length_map, h.perm.length_eq]
  have hinputs : (draft.tx.vin.map fun txin => signedInputWeight (some cc) txin.prevout).sum =
      result.selectedInputs.length * maxP2WPKHInputWeight := by
    rw [← hvin]
    refine sum_map_eq_length_mul fun txin _ => ?_
    rw [signedInputWeight, Option.bind_some, hnone, Option.getD_none]
  have houtputs : ((vecSend.map CRecipient.txout).map outputSize).sum =
      (vecSend.map fun recipient => outputSize recipient.txout).sum := by
    rw [map_map]
    rfl
  rw [signedTxSizeOf]
  dsimp only
  rw [hvin, h.drafted.vout, length_placeChangeIn hrange, sum_outputSize_placeChangeIn hrange,
    length_map, htxouts, if_neg Bool.false_ne_true, h.isSome_change, finalSize, noinputsSize]
  rcases h.change with ⟨rfl, hle⟩ | ⟨pos, rfl, hpos⟩
  · have hno : hasChange plan result = false := decide_eq_false (not_lt.mpr hle)
    rw [hno, if_neg Bool.false_ne_true, if_neg Bool.false_ne_true, add_zero, Option.map_none,
      Option.getD_none]
    omega
  · have hyes : hasChange plan result := decide_eq_true hpos
    rw [hyes, if_pos rfl, if_pos rfl, Option.map_some, Option.getD_some, outputSize_eq _ 0]
    omega

/-- The size of the draft is made of the sizes of its parts. -/
theorem Assembled.size_eq (hcoins : coins ≠ [])
    (hnone : ∀ outpoint, cc.getInputWeight outpoint = none)
    (h : Assembled wallet cc vecSend plan result coins change draft) {size : TxSize}
    (hsize : draftSize wallet cc draft = .ok size) :
    size.vsize = finalSize vecSend plan.scriptChange result.selectedInputs.length
      (hasChange plan result) := by
  obtain ⟨found, hfound, hsize⟩ := bind_eq_ok_iff.mp hsize
  split at hsize
  · cases hsize
  cases hsize
  obtain ⟨txouts, htxouts, rfl⟩ := except_map_eq_ok_iff.mp (orAbort_eq_ok hfound)
  rename_i hknown
  cases txouts with
  | none => exact absurd rfl hknown
  | some txouts =>
    have hsome : txouts.isEmpty = false := by
      rw [h.vin] at htxouts
      obtain ⟨coin, rest, rfl⟩ := exists_cons_of_ne_nil hcoins
      exact spentOutputs_ne_nil htxouts
    have hweight := h.signedTxSizeOf_eq hnone hsome
    change max (signedTxSizeOf draft.tx txouts cc).weight 0 = _
    rw [hweight]
    exact max_eq_left (finalSize_nonneg _ _ _ _)

end Size

/-! ### The fee that is paid -/

/-- What a selection leaves for the fee. If no recipient pays for it, it is what was planned for
what is not an input, for each input and for bumping ancestors, and either the fee of the change or
all that is selected beyond the target. -/
def fundedFee (feerate : CFeeRate) (vecSend : List CRecipient) (plan : FundingPlan)
    (result : SelectionResult) : Int :=
  if vecSend.any CRecipient.subtractFeeFromAmount then
    if hasChange plan result then 0 else result.getSelectedValue - recipientsTotal vecSend
  else
    feerate.getFee (noinputsSize vecSend) + result.selectedInputs.length *
    feerate.getFee maxP2WPKHInputWeight + result.getTotalBumpFees +
      if hasChange plan result then feerate.getFee (outputSize ⟨0, plan.scriptChange⟩)
      else result.getSelectedEffectiveValue - plan.selectionTarget

section Fee

variable {wallet : SpendWallet} {coins : List COutput} {change : Change}

section

variable (hnone : ∀ outpoint, cc.getInputWeight outpoint = none)

include hnone

/-- What coins are worth is what they are worth effectively, the fee of each of them and what bumps
their ancestors. -/
theorem sum_effectiveValue {feerate : CFeeRate}
    (h : ∀ coin ∈ coins, PricedCoin wallet cc feerate coin) :
    (coins.map COutput.effectiveValue).sum = (coins.map fun coin => (coin.txout.nValue : Int)).sum -
      (coins.map COutput.ancestorBumpFees).sum - coins.length *
      feerate.getFee maxP2WPKHInputWeight := by
  induction coins with
  | nil => simp
  | cons coin rest ih =>
    have hcoin := h coin mem_cons_self
    have hfee : coin.fee = feerate.getFee maxP2WPKHInputWeight + coin.ancestorBumpFees := by
      rw [hcoin.fee, hcoin.inputBytes hnone, COutput.inputFee, if_neg (by decide)]
    have hvalue := hcoin.effectiveValue
    have hrest := ih fun other hother => h other (mem_cons_of_mem coin hother)
    simp only [map_cons, sum_cons, length_cons, Int.natCast_add, add_mul]
    omega

private theorem SelectedFor.effectiveValue_eq (h : SelectedFor P wallet cc plan result) :
    result.getSelectedEffectiveValue = result.getSelectedValue - result.getTotalBumpFees -
      result.selectedInputs.length * (wallet.getMinimumFeeRate cc).1.getFee
        maxP2WPKHInputWeight := by
  have hsum := sum_effectiveValue hnone fun coin hcoin => (h.funds.coin coin hcoin).priced
  rw [SelectionResult.getSelectedEffectiveValue, SelectionResult.getSelectedValue,
    SelectionResult.getTotalBumpFees]
  omega

private theorem unsettledFee_eq_fundedFee
    (hplan : Planned wallet cc vecSend plan) (hresult : SelectedFor P wallet cc plan result)
    (hdraft : Assembled wallet cc vecSend plan result coins change draft) :
    unsettledFee result.getSelectedValue vecSend change =
      fundedFee (wallet.getMinimumFeeRate cc).1 vecSend plan result := by
  have heffective := hresult.effectiveValue_eq hnone
  have htarget := hplan.target
  have huse := hresult.funds.useEffective
  rw [hplan.subtractFeeOutputs] at huse
  rw [fundedFee]
  rcases hdraft.change with ⟨rfl, hle⟩ | ⟨pos, rfl, hpos⟩
  · have hno : hasChange plan result = false := decide_eq_false (not_lt.mpr hle)
    rw [hno, if_neg Bool.false_ne_true, if_neg Bool.false_ne_true]
    change _ - _ - (0 : Int) = _
    split
    · omega
    next hpays =>
      rw [if_neg hpays] at htarget
      omega
  · have hyes : hasChange plan result := decide_eq_true hpos
    rw [hyes]
    change _ - _ - result.getChange plan.params.minViableChange plan.params.changeFee = _
    rw [(getChange_of_pos hpos).2, huse, hresult.funds.target, hplan.changeFee]
    cases hpays : vecSend.any CRecipient.subtractFeeFromAmount with
    | true =>
      rw [hpays, if_pos rfl, CFeeRate.getFee_zero] at htarget
      simp only [Bool.not_true, Bool.false_eq_true, if_false, if_true]
      omega
    | false =>
      rw [hpays, if_neg Bool.false_ne_true] at htarget
      simp only [Bool.not_false, Bool.false_eq_true, if_false, if_true]
      omega

end

/-- The fee falls short: it would be negative, or less than the whole transaction and its ancestors
need while no recipient pays for it. -/
def FeeShort (feerate : CFeeRate) (vecSend : List CRecipient) (plan : FundingPlan)
    (result : SelectionResult) : Prop :=
  fundedFee feerate vecSend plan result < 0 ∨
    vecSend.any CRecipient.subtractFeeFromAmount = false ∧ fundedFee feerate vecSend plan result <
      feerate.getFee (finalSize vecSend plan.scriptChange result.selectedInputs.length
        (hasChange plan result)) + result.getTotalBumpFees

private theorem getFee_natCast_mul_le {feerate : CFeeRate} (hfee : 0 ≤ feerate.fee) (n : Nat)
    (size : Int) : feerate.getFee (n * size) ≤ n * feerate.getFee size := by
  induction n with
  | zero => simp
  | succ n ih =>
    rw [Int.natCast_add, add_mul, add_mul, Int.natCast_one, one_mul, one_mul]
    exact (CFeeRate.getFee_add_le hfee _ _).trans (add_le_add_left ih _)

/-- If the counts take the bytes that were planned, the fees of the parts are at least that of the
whole. -/
theorem getFee_finalSize_le {feerate : CFeeRate} (hfee : 0 ≤ feerate.fee) (script : CScript)
    {inputs : Nat} (hinputs : inputs < 253)
    (houtputs : getSizeOfCompactSize (vecSend.length + 1) = getSizeOfCompactSize vecSend.length)
    (changed : Bool) :
    feerate.getFee (finalSize vecSend script inputs changed) ≤
    feerate.getFee (noinputsSize vecSend) +
      inputs * feerate.getFee maxP2WPKHInputWeight + if changed then feerate.getFee
        (outputSize ⟨0, script⟩) else 0 := by
  have hparts := CFeeRate.getFee_add_le hfee (noinputsSize vecSend) (inputs * maxP2WPKHInputWeight)
  have hmul := getFee_natCast_mul_le hfee inputs maxP2WPKHInputWeight
  have hone : getSizeOfCompactSize inputs = 1 := if_pos hinputs
  rw [finalSize, houtputs, hone, sub_self, sub_self, add_zero, add_zero]
  cases changed with
  | false =>
    rw [if_neg Bool.false_ne_true, if_neg Bool.false_ne_true, add_zero]
    omega
  | true =>
    rw [if_pos rfl, if_pos rfl]
    have hchange := CFeeRate.getFee_add_le hfee
      (noinputsSize vecSend + inputs * maxP2WPKHInputWeight) (outputSize ⟨0, script⟩)
    omega

private theorem SelectedFor.covered_of_not_hasChange (hdiscard : 0 ≤ wallet.discardRate.fee)
    (hplan : Planned wallet cc vecSend plan) (h : SelectedFor P wallet cc plan result)
    (hno : hasChange plan result = false) :
    plan.selectionTarget ≤ if vecSend.any
      CRecipient.subtractFeeFromAmount then result.getSelectedValue
      else result.getSelectedEffectiveValue := by
  have hviable : 0 < plan.params.minViableChange := by
    rw [hplan.minViableChange, minViableChange]
    have hspend := CFeeRate.getFee_nonneg hdiscard
      (n := calculateMaximumSignedInputSize none nullOutpoint) (le_max_right _ _)
    exact (Int.lt_add_one_of_le hspend).trans_le (le_max_left _ _)
  have hzero : result.getChange plan.params.minViableChange plan.params.changeFee = 0 := by
    have hle := not_lt.mp (of_decide_eq_false hno)
    rw [SelectionResult.getChange] at hle ⊢
    generalize (if result.useEffective = true then _ else _ : Int) = change at hle ⊢
    by_cases hsmall : change < plan.params.minViableChange
    · exact if_pos hsmall
    · rw [if_neg hsmall] at hle
      omega
  rw [← hplan.subtractFeeOutputs, ← h.funds.target]
  exact h.funds.covered.resolve_left fun hne => hne hzero

/-- Feerates and fees for ancestors are not negative, and change does not lengthen the count of the
outputs. -/
structure FeesPlanned (wallet : SpendWallet) (cc : CCoinControl)
    (vecSend : List CRecipient) : Prop where
  feerate : 0 ≤ (wallet.getMinimumFeeRate cc).1.fee
  discardRate : 0 ≤ wallet.discardRate.fee
  bumpFees : wallet.chain.BumpFeesNonneg
  outputs : getSizeOfCompactSize (vecSend.length + 1) = getSizeOfCompactSize vecSend.length

/-- The fee does not fall short if a single byte counts the inputs. -/
theorem FeesPlanned.not_feeShort (h : FeesPlanned wallet cc vecSend)
    (hplan : Planned wallet cc vecSend plan) (hresult : SelectedFor P wallet cc plan result)
    (hbump : 0 ≤ result.getTotalBumpFees) (hinputs : result.selectedInputs.length < 253) :
    ¬ FeeShort (wallet.getMinimumFeeRate cc).1 vecSend plan result := by
  have hcovered := hresult.covered_of_not_hasChange h.discardRate hplan
  have htarget := hplan.target
  have hwhole := getFee_finalSize_le h.feerate plan.scriptChange hinputs h.outputs
    (hasChange plan result)
  have hpositive := CFeeRate.getFee_nonneg h.feerate
    (finalSize_nonneg vecSend plan.scriptChange result.selectedInputs.length
      (hasChange plan result))
  rw [FeeShort, fundedFee]
  cases hpays : vecSend.any CRecipient.subtractFeeFromAmount with
  | true =>
    rw [hpays, if_pos rfl] at hcovered htarget
    rw [CFeeRate.getFee_zero] at htarget
    rw [if_pos rfl]
    rintro (hneg | ⟨hfalse, -⟩)
    · split at hneg
      · exact lt_irrefl 0 hneg
      next hno =>
        have hselected := hcovered (Bool.eq_false_of_not_eq_true hno)
        omega
    · cases hfalse
  | false =>
    rw [hpays, if_neg Bool.false_ne_true] at hcovered
    rw [if_neg Bool.false_ne_true]
    cases hchange : hasChange plan result with
    | true =>
      rw [hchange, if_pos rfl] at hwhole
      rw [hchange] at hpositive
      rw [if_pos rfl]
      rintro (hneg | ⟨-, hshort⟩) <;> omega
    | false =>
      have hselected := hcovered hchange
      rw [hchange, if_neg Bool.false_ne_true] at hwhole
      rw [hchange] at hpositive
      rw [if_neg Bool.false_ne_true]
      rintro (hneg | ⟨-, hshort⟩) <;> omega

/-- There are no more inputs than outputs that were chosen by hand or are recorded. -/
theorem SelectedFor.length_le (h : SelectedFor P wallet cc plan result) :
    result.selectedInputs.length ≤ cc.listSelected.length + wallet.txos.length := by
  have hsub : result.selectedInputs.map COutput.outpoint ⊆ cc.listSelected ++
      wallet.txos.map WalletTxo.outpoint := by
    intro outpoint houtpoint
    obtain ⟨coin, hcoin, rfl⟩ := mem_map.mp houtpoint
    rcases (h.funds.coin coin hcoin).origin with hselected |
      ⟨-, available, hok, other, hother, hsame, -⟩
    · exact mem_append_left _ hselected
    · obtain ⟨txo, htxo, hout, -⟩ := (availableCoins_spec hok other hother).txo
      exact mem_append_right _ (mem_map.mpr ⟨txo, htxo, hout.trans hsame⟩)
  have hle := (result.distinct.subperm hsub).length_le
  rwa [length_map, length_append, length_map] at hle

end Fee

/-- Coins are selected and a transaction of known size is assembled, for which the fee falls short.
-/
def AssemblesShort (P : Primitives) (R : RandomSource) (sorts : Sorts) (wallet : SpendWallet)
    (cc : CCoinControl) (vecSend : List CRecipient) (changePos : Option Nat)
    (newDestination : Except String CTxDestination) (rng : R.State) : Prop :=
  ∃ plan rng₁ result rng₂ draft rng₃ size, (planFunding R wallet cc vecSend newDestination).Returns
    rng plan rng₁ ∧ (selectFunds P R sorts wallet cc plan).Returns rng₁ result rng₂ ∧
    (assemble R wallet cc vecSend changePos plan result).Returns rng₂ draft rng₃ ∧
    draftSize wallet cc draft = .ok size ∧ FeeShort (wallet.getMinimumFeeRate cc).1
      vecSend plan result

private theorem internalBug_iff {R : RandomSource} {sorts : Sorts} {wallet : SpendWallet}
    {changePos : Option Nat} {sign : Bool} {rnd : Nat → CKeyID → Uint256}
    {newDestination : Except String CTxDestination} {rng : R.State}
    (hnone : ∀ outpoint, cc.getInputWeight outpoint = none) :
    (∃ message rng', (createTransactionInternal P R sorts wallet cc vecSend changePos sign rnd
      newDestination).exec rng = (.error (.internalBug message), rng')) ↔
      AssemblesShort P R sorts wallet cc vecSend changePos newDestination rng := by
  -- what the settling of a draft makes of the condition
  have hsettles : ∀ {plan : FundingPlan} {result : SelectionResult} {draft : Draft} {size : TxSize}
      {rng₁ rng₂ rng₃ : R.State}, (planFunding R wallet cc vecSend newDestination).Returns
        rng plan rng₁ →
      (selectFunds P R sorts wallet cc plan).Returns rng₁ result rng₂ →
      (assemble R wallet cc vecSend changePos plan result).Returns rng₂ draft rng₃ →
      draftSize wallet cc draft = .ok size →
      ((∃ message, settleFees wallet vecSend result.getSelectedValue
        (neededFee plan result size) draft =
        .error (.internalBug message)) ↔ FeeShort (wallet.getMinimumFeeRate cc).1 vecSend
          plan result) := by
    intro plan result draft size rng₁ rng₂ rng₃ hplan hresult hdraft hsize
    have hplanned := yields_planFunding _ _ _ hplan
    have hselected := yields_selectFunds hplanned _ _ _ hresult
    obtain ⟨coins, change, hassembled⟩ := yields_assemble _ _ _ hdraft
    have hcoins : coins ≠ [] := by
      rintro rfl
      exact hselected.funds.nonempty hassembled.perm.nil_eq.symm
    rw [settleFees_internalBug_iff hassembled.drafted, unsettledFee_eq_fundedFee hnone hplanned
      hselected hassembled,
      neededFee, hplanned.effectiveFeerate, hassembled.size_eq hcoins hnone hsize, FeeShort]
  constructor
  · rintro ⟨message, rng', hbug⟩
    obtain ⟨plan, rng₁, hplan, hbug⟩ :=
      (exec_bind_error fails_planFunding not_ordinary_internalBug).mp hbug
    obtain ⟨result, rng₂, hresult, hbug⟩ :=
      (exec_bind_error fails_selectFunds not_ordinary_internalBug).mp hbug
    obtain ⟨draft, rng₃, hdraft, hbug⟩ :=
      (exec_bind_error fails_assemble not_ordinary_internalBug).mp hbug
    obtain ⟨size, hsize, hsettle⟩ := finish_internalBug_iff.mp (Prod.mk.inj hbug).1
    exact ⟨plan, rng₁, result, rng₂, draft, rng₃, size, hplan, hresult, hdraft, hsize,
      (hsettles hplan hresult hdraft hsize).mp ⟨message, hsettle⟩⟩
  · rintro ⟨plan, rng₁, result, rng₂, draft, rng₃, size, hplan, hresult, hdraft, hsize, hshort⟩
    obtain ⟨message, hsettle⟩ := (hsettles hplan hresult hdraft hsize).mpr hshort
    refine ⟨message, rng₃, ?_⟩
    refine (exec_bind_error fails_planFunding not_ordinary_internalBug).mpr ⟨plan, rng₁, hplan, ?_⟩
    refine (exec_bind_error fails_selectFunds not_ordinary_internalBug).mpr
      ⟨result, rng₂, hresult, ?_⟩
    refine (exec_bind_error fails_assemble not_ordinary_internalBug).mpr ⟨draft, rng₃, hdraft, ?_⟩
    exact Prod.ext (finish_internalBug_iff.mpr ⟨size, hsize, hsettle⟩) rfl

namespace SpendExample

/-- As many recipients as a single byte can count. -/
def manyRecipients : List CRecipient := List.replicate 252 ⟨dest, 1000, false⟩

/-- A transaction to many recipients, without signatures. -/
def createMany : CreateM random CreatedTransactionResult :=
  createTransactionInternal .repeating random sorts wallet (coinControl 10000000)
    manyRecipients none false (fun _ _ => .null 32) (.error "")

theorem bumpFeesNonneg_chain : chain.BumpFeesNonneg := by
  rintro outpoints feerate fee h
  cases h
  exact le_refl 0

private theorem getInputWeight_coinControl (amount : Int) (o : COutPoint) :
    (coinControl amount).getInputWeight o = none := by
  rw [CCoinControl.getInputWeight, Option.bind_eq_none_iff]
  intro preset hpreset
  rw [(Prod.mk.inj (mem_singleton.mp (mem_of_lookup hpreset))).2]

set_option maxRecDepth 20000 in
/-- The change is the output that the count of the outputs has no room for. -/
theorem createMany_outcome : createMany.exec () =
    (.error (.internalBug "Fee needed > fee paid"), ()) := by
  rfl

end SpendExample

end Tessera.Wallet
