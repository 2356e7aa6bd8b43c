import Tessera.Wallet.CoinOrigin
import Tessera.Wallet.FeeSettlement

/-!
# What a created transaction pays

A transaction that `CreateTransactionInternal` returns conserves value and pays the recipients in
order. Its inputs are distinct: those chosen by hand, and otherwise coins that `AvailableCoins` has
returned.
-/

namespace Tessera.Wallet

open Lib Lib.Comp Policy Script Tx List

variable {P : Primitives} {R : RandomSource} {cc : CCoinControl} {result : SelectionResult}
  {plan : FundingPlan}
  {rnd : Nat → CKeyID → Uint256} {created : CreatedTransactionResult} {draft : Draft}

section Parts

variable {sorts : Sorts} {wallet : SpendWallet}
  {vecSend : List CRecipient}

/-! ### The plan -/

/-- The size of the transaction without its inputs and change. -/
def noinputsSize (vecSend : List CRecipient) : Int :=
  11 + getSizeOfCompactSize vecSend.length +
    (vecSend.map fun recipient => outputSize recipient.txout).sum

private theorem addRecipients_eq_ok {dustRelayFee : CFeeRate} {recipients : List CRecipient}
    {sums total : Int × Int} (hok : addRecipients dustRelayFee recipients sums = .ok total) :
    total.1 = sums.1 + (recipients.map fun recipient => outputSize recipient.txout).sum ∧
      total.2 = sums.2 + recipientsTotal recipients := by
  induction recipients generalizing sums with
  | nil =>
    cases hok
    exact ⟨(add_zero _).symm, (add_zero _).symm⟩
  | cons recipient rest ih =>
    rw [addRecipients] at hok
    split at hok
    · cases hok
    split at hok
    · obtain ⟨hsize, hsum⟩ := ih hok
      rw [recipientsTotal, map_cons, sum_cons, map_cons, sum_cons]
      rw [recipientsTotal] at hsum
      exact ⟨by omega, by omega⟩
    · cases hok

/-- What a plan is made of. -/
structure Planned (wallet : SpendWallet) (cc : CCoinControl) (vecSend : List CRecipient)
    (plan : FundingPlan) : Prop where
  effectiveFeerate : plan.params.effectiveFeerate = (wallet.getMinimumFeeRate cc).1
  subtractFeeOutputs : plan.params.subtractFeeOutputs = vecSend.any CRecipient.subtractFeeFromAmount
  minViableChange : plan.params.minViableChange = minViableChange wallet plan.scriptChange
  changeFee : plan.params.changeFee = (wallet.getMinimumFeeRate cc).1.getFee
    (outputSize ⟨0, plan.scriptChange⟩)
  target : plan.selectionTarget = recipientsTotal vecSend + (wallet.getMinimumFeeRate cc).1.getFee
    (if vecSend.any CRecipient.subtractFeeFromAmount then 0 else noinputsSize vecSend)

theorem yields_planFunding {newDestination : Except String CTxDestination} :
    Yields (Planned wallet cc vecSend) (planFunding R wallet cc vecSend newDestination) := by
  refine yields_bind (yields_true _) fun _ _ => ?_
  refine yields_bind (yields_ofExcept fun sums hok => addRecipients_eq_ok hok) fun sums hsums => ?_
  refine yields_bind (yields_true _) fun script _ => ?_
  refine yields_bind (yields_true _) fun _ _ => ?_
  refine yields_bind (yields_true _) fun _ _ => ?_
  refine yields_bind (yields_true _) fun minChangeTarget _ => ?_
  refine yields_bind (yields_true _) fun _ _ => yields_pure ⟨rfl, rfl, rfl, rfl, ?_⟩
  rw [hsums.1, hsums.2.trans (zero_add _)]
  rfl

/-! ### The coins -/

/-- A coin that may be spent: one that is priced, and either chosen by hand or available. -/
structure OfferedCoin (P : Primitives) (wallet : SpendWallet) (cc : CCoinControl)
    (coin : COutput) : Prop where
  priced : PricedCoin wallet cc (wallet.getMinimumFeeRate cc).1 coin
  origin : coin.outpoint ∈ cc.listSelected ∨ cc.allowOtherInputs = true ∧ ∃ available,
    availableCoins P wallet cc (wallet.getMinimumFeeRate cc).1 = .ok available ∧
      ∃ other ∈ available.all, other.outpoint = coin.outpoint ∧ other.txout = coin.txout

/-- What is known of the coins that were selected. -/
structure SelectedFor (P : Primitives) (wallet : SpendWallet) (cc : CCoinControl)
    (plan : FundingPlan) (result : SelectionResult) : Prop where
  funds : plan.params.Funds (OfferedCoin P wallet cc) plan.selectionTarget result
  preset : ∀ outpoint ∈ cc.listSelected, outpoint ∈ result.selectedInputs.map COutput.outpoint

variable {α : Type} {general : CreateError} {sign : Bool}

private theorem yields_runSelection {S : α → Prop} {x : SelectM R α} (h : Yields S x) :
    Yields S (runSelection R general x) := by
  rintro rng a rng' hret
  obtain ⟨hresult, hrng⟩ := Prod.mk.inj hret
  refine h rng a rng' (Prod.ext ?_ hrng)
  change (x rng).1 = _
  generalize (x rng).1 = outcome at hresult ⊢
  rcases outcome with (_ | _) | b <;> cases hresult
  rfl

variable {changePos : Option Nat} {tx : CTransaction}

theorem yields_selectFunds (hplan : Planned wallet cc vecSend plan) :
    Yields (SelectedFor P wallet cc plan) (selectFunds P R sorts wallet cc plan) := by
  refine yields_bind (yields_ofExcept fun preset hok => presetCoins_spec hok)
    fun preset hpreset => ?_
  refine yields_bind (yields_ofExcept fun available hok => orAbort_eq_ok hok)
    fun available havailable => ?_
  rw [hplan.effectiveFeerate] at hpreset havailable
  -- preset coins are priced, and available ones keep their price in a group
  have hchosen : ∀ coin ∈ preset.all, OfferedCoin P wallet cc coin :=
    fun coin hcoin => ⟨(hpreset.coin coin hcoin).2, .inl (hpreset.coin coin hcoin).1⟩
  have hothers : ∀ coin ∈ available.all, KeepsInGroup (OfferedCoin P wallet cc) coin := by
    intro coin hcoin fee
    -- the group that a coin is put into sets its long-term fee only
    refine ⟨{ (otherCoins_spec havailable coin hcoin).priced with }, .inr ?_⟩
    rw [otherCoins] at havailable
    split at havailable
    next hallow => exact ⟨hallow, available, havailable, coin, hcoin, rfl, rfl⟩
    · cases havailable
      exact absurd hcoin not_mem_nil
  refine (yields_runSelection (yields_selectCoins hchosen hothers hpreset.empty)).imp
    fun result hresult => ?_
  refine ⟨hresult.funds, fun outpoint houtpoint => ?_⟩
  obtain ⟨coin, hcoin, rfl⟩ := hpreset.outpoint outpoint houtpoint
  obtain ⟨other, hother, hsame⟩ := hresult.preset coin hcoin
  exact mem_map.mpr ⟨other, hother, hsame⟩

theorem yields_selectFunds_bumpFees (hchain : wallet.chain.BumpFeesNonneg) :
    Yields (fun result => 0 ≤ result.getTotalBumpFees) (selectFunds P R sorts wallet cc plan) := by
  refine yields_bind (yields_ofExcept fun preset hok => presetCoins_spec hok)
    fun preset hpreset => ?_
  refine yields_bind (yields_ofExcept fun available hok => orAbort_eq_ok hok)
    fun available havailable => ?_
  refine yields_runSelection (yields_selectCoins_bumpFees hchain ?_ ?_)
  · exact fun coin hcoin => (hpreset.coin coin hcoin).2.bumpFees
  · exact fun coin hcoin => (otherCoins_spec havailable coin hcoin).priced.bumpFees

/-! ### The draft -/

/-- What is known of the draft: its coins in order, and its change. -/
structure Assembled (wallet : SpendWallet) (cc : CCoinControl) (vecSend : List CRecipient)
    (plan : FundingPlan)
    (result : SelectionResult) (coins : List COutput) (change : Change) (draft : Draft) : Prop where
  perm : coins.Perm result.selectedInputs
  vin : draft.tx.vin = coins.map (inputOf wallet cc)
  drafted : Drafted vecSend change draft
  change : (change = none ∧ result.getChange plan.params.minViableChange
    plan.params.changeFee ≤ 0) ∨
    ∃ pos, change = some (pos,
      ⟨result.getChange plan.params.minViableChange plan.params.changeFee, plan.scriptChange⟩) ∧
      0 < result.getChange plan.params.minViableChange plan.params.changeFee

private theorem yields_placeChange : Yields (fun pos => pos ≤ vecSend.length)
    (placeChange R vecSend changePos) := by
  cases changePos with
  | none =>
    rintro rng pos rng' hret
    obtain ⟨rfl, -⟩ := returns_act_iff.mp hret
    exact Nat.le_of_lt_succ (R.randrange_lt rng _ (Nat.succ_pos _))
  | some pos => exact yields_ite (fun _ => yields_throw _) fun hle => yields_pure (not_lt.mp hle)

private theorem yields_assembleOutputs {amount : Int} :
    Yields (fun outputs => ∃ change : Change, outputs.1 =
      placeChangeIn change (vecSend.map CRecipient.txout) ∧
        outputs.2 = change.map Prod.fst ∧
        (∀ placed, change = some placed → placed.1 ≤ vecSend.length) ∧
        ((change = none ∧ amount ≤ 0) ∨ ∃ pos, change = some (pos, ⟨amount, plan.scriptChange⟩) ∧
          0 < amount))
      (assembleOutputs R vecSend changePos plan amount) := by
  refine yields_ite (fun hpos => ?_) fun hneg => ?_
  · refine yields_bind yields_placeChange fun pos hle => yields_pure ?_
    refine ⟨some (pos, ⟨amount, plan.scriptChange⟩), rfl, rfl, ?_, .inr ⟨pos, rfl, hpos⟩⟩
    rintro placed ⟨⟩
    exact hle
  · refine yields_pure ⟨none, rfl, rfl, ?_, .inl ⟨rfl, not_lt.mp hneg⟩⟩
    rintro placed ⟨⟩

private theorem perm_orderSelected (coins : List COutput) :
    (orderSelected cc coins).Perm coins := by
  rw [orderSelected]
  split
  · exact perm_insertionSort _ _
  · exact List.Perm.refl _

theorem yields_assemble :
    Yields (fun draft => ∃ coins change, Assembled wallet cc vecSend plan result coins change draft)
      (assemble R wallet cc vecSend changePos plan result) := by
  refine yields_bind yields_assembleOutputs fun outputs houtputs => ?_
  obtain ⟨change, hvout, hpos, hrange, hchange⟩ := houtputs
  have hshuffle : Yields (fun coins : List COutput => coins.Perm result.selectedInputs)
      (act (fun rng => R.shuffle rng result.selectedInputs) : CreateM R (List COutput)) := by
    rintro rng coins rng' hret
    obtain ⟨rfl, -⟩ := returns_act_iff.mp hret
    exact R.shuffle_perm rng _
  refine yields_bind hshuffle fun coins hcoins => ?_
  refine yields_bind (yields_true _) fun locktime _ => yields_pure ?_
  exact ⟨orderSelected cc coins, change, (perm_orderSelected coins).trans hcoins, rfl,
    ⟨hvout, hpos, hrange⟩, hchange⟩

/-! ### The result -/

theorem signIfAsked_unsigned {signed : CTransaction}
    (hok : signIfAsked P wallet sign rnd tx = .ok signed) : signed.unsigned = tx.unsigned := by
  rw [signIfAsked] at hok
  split at hok
  · have hframe := KeyCore.signTransaction_unsigned (P := P) wallet.keys wallet.mapWallet rnd tx
    split at hok
    next heq =>
      rw [heq] at hframe
      cases hok
      exact hframe
    · cases hok
  · cases hok
    rfl

variable {tx' : CTransaction}

theorem vout_of_unsigned (h : tx.unsigned = tx'.unsigned) : tx.vout = tx'.vout := by
  have hvout := congrArg CTransaction.vout h
  exact hvout

theorem prevouts_of_unsigned (h : tx.unsigned = tx'.unsigned) :
    tx.vin.map CTxIn.prevout = tx'.vin.map CTxIn.prevout := by
  have hvin := congrArg (fun tx => tx.vin.map CTxIn.prevout) h
  simpa [CTransaction.unsigned, CTxIn.unsigned, Function.comp_def] using hvin

/-- What is known of a transaction that was made from a draft. -/
structure Finished (P : Primitives) (wallet : SpendWallet) (cc : CCoinControl)
    (vecSend : List CRecipient) (sign : Bool)
    (rnd : Nat → CKeyID → Uint256) (plan : FundingPlan) (result : SelectionResult) (draft : Draft)
    (created : CreatedTransactionResult) : Prop where
  settled : ∃ size vout, draftSize wallet cc draft = .ok size ∧
    settleFees wallet vecSend result.getSelectedValue (neededFee plan result size) draft =
      .ok (vout, created.fee) ∧
    signIfAsked P wallet sign rnd { draft.tx with vout := vout } = .ok created.tx
  changePos : created.changePos = draft.changePos

theorem finish_eq_ok
    (hok : finish P wallet cc vecSend sign rnd plan result draft = .ok created) :
    Finished P wallet cc vecSend sign rnd plan result draft created := by
  simp only [finish, bind_eq_ok_iff] at hok
  obtain ⟨size, hsize, settled, hsettled, _, -, tx, htx, _, -, hrest⟩ := hok
  cases hrest
  exact ⟨⟨size, settled.1, hsize, hsettled, htx⟩, rfl⟩

end Parts

/-! ### What a created transaction pays -/

namespace CreatedTransactionResult

variable (created)

def withoutChange : List CTxOut :=
  match created.changePos with
  | none => created.tx.vout
  | some pos => created.tx.vout.eraseIdx pos

def change (created : CreatedTransactionResult) : Option CTxOut := created.changePos.bind fun pos =>
    created.tx.vout[pos]?

def changeAmount : Int := (created.change.map fun txout => (txout.nValue : Int)).getD 0

end CreatedTransactionResult

def coinsValue (coins : List COutput) : Int := (coins.map fun coin => (coin.txout.nValue : Int)).sum

/-- What a transaction has to do that spends coins for recipients. -/
structure PaysAsAsked (P : Primitives) (wallet : SpendWallet) (cc : CCoinControl)
    (vecSend : List CRecipient)
    (coins : List COutput) (created : CreatedTransactionResult) : Prop where
  inputs : created.tx.vin.map CTxIn.prevout = coins.map COutput.outpoint
  distinct : (created.tx.vin.map CTxIn.prevout).Nodup
  preset : ∀ outpoint ∈ cc.listSelected, outpoint ∈ created.tx.vin.map CTxIn.prevout
  origin : ∀ coin ∈ coins, coin.outpoint ∈ cc.listSelected ∨ cc.allowOtherInputs =
    true ∧ ∃ available, availableCoins P wallet cc (wallet.getMinimumFeeRate cc).1 = .ok available ∧
      ∃ other ∈ available.all, other.outpoint = coin.outpoint ∧ other.txout = coin.txout
  known : ∀ coin ∈ coins, KnownOutput wallet cc coin.outpoint coin.txout
  conserved : coinsValue coins = calculateOutputValue created.tx.vout + created.fee
  change : ∀ pos, created.changePos = some pos → ∃ change, created.tx.vout[pos]? = some change ∧
    minViableChange wallet change.scriptPubKey ≤ change.nValue
  -- the shortfall is what the fee exceeds the rest of the inputs by
  paid : created.withoutChange = payRecipients
    (created.fee - (coinsValue coins - recipientsTotal vecSend - created.changeAmount)) vecSend

section Pays

variable {sorts : Sorts} {wallet : SpendWallet}
  {vecSend : List CRecipient} {change : Change}

/-- The change is found where it was placed, and the rest is left without it. -/
theorem change_of_placed {paid : List CTxOut} (hpos : created.changePos = change.map Prod.fst)
    (hvout : created.tx.vout = placeChangeIn change paid)
    (hrange : ∀ placed, change = some placed → placed.1 ≤ paid.length) :
    created.withoutChange = paid ∧ created.change = change.map Prod.snd := by
  rw [CreatedTransactionResult.withoutChange, CreatedTransactionResult.change, hpos, hvout]
  rcases change with _ | ⟨pos, txout⟩
  · exact ⟨rfl, rfl⟩
  · exact ⟨eraseIdx_insertIdx_self txout, getElem?_insertIdx_self.trans (if_pos (hrange _ rfl))⟩

/-- Change is made only if it is viable. It is all that is selected beyond the target, except for
its own fee. -/
theorem getChange_of_pos {minViableChange changeFee : Int}
    (h : 0 < result.getChange minViableChange changeFee) :
    minViableChange ≤ result.getChange minViableChange changeFee ∧
      result.getChange minViableChange changeFee = if result.useEffective then
        result.getSelectedEffectiveValue - result.target - changeFee else result.getSelectedValue -
        result.target := by
  rw [SelectionResult.getChange] at h ⊢
  generalize (if result.useEffective = true then _ else _ : Int) = change at h ⊢
  split_ifs at h ⊢ with hsmall
  · exact absurd h (lt_irrefl 0)
  · exact ⟨not_lt.mp hsmall, rfl⟩

/-- A draft with its coins, settled and signed, does what was asked for. -/
theorem paysAsAsked_of_finished {sign : Bool} {coins : List COutput}
    (hplan : Planned wallet cc vecSend plan) (hresult : SelectedFor P wallet cc plan result)
    (hdraft : Assembled wallet cc vecSend plan result coins change draft)
    (hdone : Finished P wallet cc vecSend sign rnd plan result draft created) :
    PaysAsAsked P wallet cc vecSend coins created := by
  obtain ⟨⟨size, vout, -, hsettle, hsign⟩, hchangePos⟩ := hdone
  have hunsigned := signIfAsked_unsigned hsign
  have hvalue : coinsValue coins = result.getSelectedValue := by
    exact (hdraft.perm.map fun coin => (coin.txout.nValue : Int)).sum_eq
  have hprevouts : created.tx.vin.map CTxIn.prevout = coins.map COutput.outpoint := by
    rw [prevouts_of_unsigned hunsigned, hdraft.vin, map_map]
    rfl
  have hoffered : ∀ coin ∈ coins, OfferedCoin P wallet cc coin :=
    fun coin hcoin => hresult.funds.coin coin (hdraft.perm.mem_iff.mp hcoin)
  have hcases := @settleFees_cases wallet vecSend change draft result.getSelectedValue
    (neededFee plan result size) hdraft.drafted
  rw [hsettle] at hcases
  cases hcases with
  | @settled hpaid hpays final _ hfinal hneeded hfee =>
    have hrange := inRange_enlargeChange hdraft.drafted
      (surplus change (neededFee plan result size)
        (unsettledFee result.getSelectedValue vecSend change))
    rw [← hfinal] at hrange
    have hlength : ∀ placed, final = some placed → placed.1 ≤
        (payRecipients (created.fee - unsettledFee result.getSelectedValue vecSend final)
          vecSend).length := by
      intro placed hplaced
      rw [payRecipients, length_payShares]
      exact hrange placed hplaced
    have hpos : created.changePos = final.map Prod.fst := by
      rw [hchangePos, hdraft.drafted.changePos, hfinal, map_fst_enlargeChange]
    obtain ⟨hwithout, hchange⟩ := change_of_placed hpos (vout_of_unsigned hunsigned) hlength
    refine ⟨hprevouts, ?_, fun outpoint houtpoint => ?_, fun coin hcoin =>
      (hoffered coin hcoin).origin,
      fun coin hcoin => (hoffered coin hcoin).priced.known, ?_, fun pos hpos' => ?_, ?_⟩
    · rw [hprevouts]
      exact (hdraft.perm.map COutput.outpoint).nodup_iff.mpr result.distinct
    · rw [hprevouts]
      exact (hdraft.perm.map COutput.outpoint).mem_iff.mpr (hresult.preset outpoint houtpoint)
    · rw [hvalue, vout_of_unsigned hunsigned]
      exact hfee
    · -- the change is viable before it takes the surplus
      rcases hdraft.change with ⟨hnone, -⟩ | ⟨at', hsome, hpositive⟩
      · rw [hfinal, hnone] at hpos
        rw [hpos] at hpos'
        cases hpos'
      · have hviable := (getChange_of_pos hpositive).1
        have hsurplus := surplus_nonneg change (neededFee plan result size)
          (unsettledFee result.getSelectedValue vecSend change)
        rw [CreatedTransactionResult.change, hpos', hfinal] at hchange
        generalize surplus change _ _ = amount at hchange hsurplus
        rw [hsome] at hchange
        refine ⟨_, hchange, ?_⟩
        rw [← hplan.minViableChange]
        exact le_trans hviable (le_add_of_nonneg_right hsurplus)
    · rw [hwithout, hvalue, CreatedTransactionResult.changeAmount, hchange, Option.map_map]
      rfl

/-- A transaction that `CreateTransactionInternal` returns conserves value and pays whom it was
asked to pay. Its inputs are distinct, include every one chosen by hand and otherwise only available
coins; without the change, which is viable, its outputs are those of the recipients in order, of
whom those that pay for the fee share what is missing of it. -/
theorem createTransactionInternal_pays (P : Primitives) (R : RandomSource) (sorts : Sorts)
    (wallet : SpendWallet) (cc : CCoinControl) (vecSend : List CRecipient) (changePos : Option Nat)
    (sign : Bool) (rnd : Nat → CKeyID → Uint256) (newDestination : Except String CTxDestination)
    {rng rng' : R.State} {created : CreatedTransactionResult}
    (hcreated : (createTransactionInternal P R sorts wallet cc vecSend changePos sign rnd
      newDestination).Returns rng
      created rng') : ∃ coins, PaysAsAsked P wallet cc vecSend coins created := by
  simp only [createTransactionInternal, returns_bind_iff] at hcreated
  obtain ⟨plan, rng₁, hplan, result, rng₂, hresult, draft, rng₃, hdraft, hrest⟩ := hcreated
  have hplanned := yields_planFunding _ _ _ hplan
  obtain ⟨coins, change, hassembled⟩ := yields_assemble _ _ _ hdraft
  exact ⟨coins, paysAsAsked_of_finished hplanned
    (yields_selectFunds hplanned _ _ _ hresult) hassembled
    (finish_eq_ok (returns_ofExcept_iff.mp hrest).1)⟩

end Pays

/-! ### An example -/

namespace SpendExample

/-- A source without randomness. -/
def random : RandomSource where
  State := Unit
  randbool _ := (false, ())
  randrange _ _ := (0, ())
  shuffle _ l := (l, ())
  randrange_lt _ _ h := h
  shuffle_perm _ l := List.Perm.refl l

/-- A node that knows of no unconfirmed transactions. -/
def chain : ChainInterface where
  relayDustFee := ⟨0, 1000⟩
  calculateIndividualBumpFees _ _ _ := 0
  calculateCombinedBumpFee _ _ := some 0
  limitAncestorCount := 25
  limitDescendantCount := 25
  getTransactionAncestry _ := (0, 0)
  checkChainLimits _ := none
  rejectLongChains := true

/-- A wallet without coins of its own, at a feerate of one per byte. -/
def wallet : SpendWallet where
  keys := .new .empty
  mapWallet _ := none
  txos := []
  chain := chain
  avoidReuse := false
  spendZeroConfChange := true
  signalRbf := true
  allowFallbackFee := false
  consolidateFeerate := ⟨1000, 1000⟩
  discardRate := ⟨1000, 1000⟩
  getMinimumFeeRate _ := (⟨1000, 1000⟩, .other)
  defaultMaxTxFee := 1000000
  maxApsFee := 0
  lastBlockHeight := 100
  isCurrentForAntiFeeSniping := true

def dest : CTxDestination := .witnessV0KeyHash (.fill 20 7)

def outpoint : COutPoint := ⟨.fill 32 1, 0⟩

/-- The caller gives the only input. -/
def coinControl (amount : Int) : CCoinControl where
  destChange := dest
  includeUnsafeInputs := false
  allowOtherInputs := true
  feerate := none
  signalBip125Rbf := none
  avoidPartialSpends := false
  avoidAddressReuse := false
  minDepth := 0
  maxDepth := 9999999
  version := 2
  locktime := none
  maxTxWeight := none
  selected := [(outpoint, ⟨some ⟨amount, getScriptForDestination dest⟩, none, none, none,
    none, some 0⟩)]
  selectionPos := 1
  distinct := List.nodup_singleton _

/-- Two recipients that pay for the fee, and one that does not. -/
def vecSend : List CRecipient := [⟨dest, 20000, true⟩, ⟨dest, 5000, false⟩, ⟨dest, 30001, true⟩]

def sorts : Sorts := ⟨sortByWaste, sortByWeight⟩

/-- A transaction to the recipients, without signatures. -/
def create (amount : Int) : CreateM random CreatedTransactionResult :=
  createTransactionInternal .repeating random sorts wallet (coinControl amount) vecSend none false
    (fun _ _ => .null 32) (.error "")

/-- The run ends with a transaction: the change comes first, and the fee is shared by the recipients
that pay for it. -/
theorem create_outcome : (((create 100000).exec ()).1.toOption.map fun created =>
    (created.fee, created.changePos, created.tx.vout.map CTxOut.nValue)) =
      some (3918, some 0, [44999, 18041, 5000, 28042]) := by
  rfl

end SpendExample

open SpendExample in
/-- A transaction of the example pays as asked. -/
theorem createTransactionInternal_pays_three : ∃ created coins, (create 100000).Returns
      () created () ∧ created.tx.vout.map CTxOut.nValue = [44999, 18041, 5000, 28042] ∧
      PaysAsAsked .repeating wallet (coinControl 100000) vecSend coins created := by
  obtain ⟨created, hoption, hvalues⟩ := Option.map_eq_some_iff.mp create_outcome
  have hreturns : (create 100000).Returns () created () := returns_of_toOption hoption
  obtain ⟨coins, hpays⟩ := createTransactionInternal_pays .repeating random sorts wallet
    (coinControl 100000) vecSend none false (fun _ _ => .null 32) (.error "") hreturns
  exact ⟨created, coins, hreturns, congrArg (fun values => values.2.2) hvalues, hpays⟩

end Tessera.Wallet
