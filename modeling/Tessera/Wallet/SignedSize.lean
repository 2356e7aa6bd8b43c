import Tessera.Wallet.FeeCovered

/-!
# The size of a signed transaction

`CalculateMaximumSignedTxSize` counts every input as that of a witness program for a key hash. The
wallet also signs for such a program behind a script hash, where the input carries the program as
well. The estimate is exact otherwise, so that a signed transaction weighs what was estimated and 23
more for each of these inputs.
-/

namespace Tessera.Wallet

open Lib Lib.Comp Policy Script Tx KeyCore List CTxIn

variable {P : Primitives} {tx : CTransaction}

/-! ### Sizes of serializations -/

private theorem length_writeCompactSize (n : Nat) : ((writeCompactSize n).length : Int) =
    getSizeOfCompactSize n := by
  rw [writeCompactSize, getSizeOfCompactSize]
  split_ifs <;> simp

variable {α : Type}

private theorem length_flatMap_sum (f : α → Bytes) (xs : List α) :
    ((xs.flatMap f).length : Int) = (xs.map fun x => ((f x).length : Int)).sum := by
  induction xs with
  | nil => rfl
  | cons x rest ih =>
    rw [flatMap_cons, length_append, Int.natCast_add, ih, map_cons, sum_cons]

private theorem length_serializeVector (f : α → Bytes) (xs : List α) :
      ((serializeVector f xs).length : Int) =
        getSizeOfCompactSize xs.length + (xs.map fun x => ((f x).length : Int)).sum := by
  rw [serializeVector, length_append, Int.natCast_add, length_writeCompactSize, length_flatMap_sum]

private theorem length_serializeBytes (bs : Bytes) :
    ((serializeBytes bs).length : Int) = getSizeOfCompactSize bs.length + bs.length := by
  rw [serializeBytes, length_append, Int.natCast_add, length_writeCompactSize]

/-- What an input weighs with its witness. -/
def signedWeight (txin : CTxIn) : Int :=
  (txin.serialize.length : Int) + ((serializeVector serializeBytes txin.scriptWitness).length : Int)

private theorem signedWeight_eq (txin : CTxIn) : signedWeight txin =
    40 + (getSizeOfCompactSize txin.scriptSig.length + txin.scriptSig.length) +
      (getSizeOfCompactSize txin.scriptWitness.length +
        (txin.scriptWitness.map fun item => getSizeOfCompactSize item.length +
          (item.length : Int)).sum) := by
  rw [signedWeight, length_serializeVector, serialize, COutPoint.serialize]
  simp only [length_append, Int.natCast_add, length_serializeBytes, serializeUInt32, writeLE_length,
    txin.prevout.hash.size_eq]
  omega

private theorem getTransactionWeight_eq (h : tx.hasWitness) :
    getTransactionWeight tx = 10 + getSizeOfCompactSize tx.vin.length +
    getSizeOfCompactSize tx.vout.length +
      (tx.vout.map outputSize).sum + (tx.vin.map signedWeight).sum := by
  have hsplit : (tx.vin.map signedWeight).sum =
    (tx.vin.map fun txin => (txin.serialize.length : Int)).sum +
      (tx.vin.map fun txin => ((serializeVector serializeBytes txin.scriptWitness).length :
        Int)).sum := sum_map_add
  have houtputs : (tx.vout.map fun txout => (txout.serialize.length : Int)) =
    tx.vout.map outputSize := rfl
  have hwitnesses := length_flatMap_sum
    (fun txin => serializeVector serializeBytes txin.scriptWitness) tx.vin
  rw [getTransactionWeight, CTransaction.serialize, h, Bool.and_self, if_pos rfl, if_pos rfl,
    hsplit, ← hwitnesses]
  simp only [length_append, Int.natCast_add, length_serializeVector, houtputs, serializeUInt32,
    writeLE_length]
  simp only [length_nil, map_nil, sum_nil, length_singleton]
  have hmarker : getSizeOfCompactSize 0 = 1 := rfl
  omega

/-! ### Signed inputs -/

section Inputs

variable {wallet : SpendWallet} {txin : CTxIn} {keys : KeyCore}

/-- An input with the witness of a key hash weighs what is estimated and its `scriptSig`. -/
theorem signedWeight_keyHash (hwitness : KeyHashWitness txin.scriptWitness)
    (hsig : txin.scriptSig.length < 253) : signedWeight txin = maxP2WPKHInputWeight +
      txin.scriptSig.length := by
  obtain ⟨sig, pubkey, hitems, hlen, hlen'⟩ := hwitness.items
  have hcount : getSizeOfCompactSize txin.scriptSig.length = 1 := if_pos hsig
  rw [signedWeight_eq, hitems]
  simp only [length_cons, length_nil, map_cons, map_nil, sum_cons, sum_nil, hlen, hlen']
  have hsizes : getSizeOfCompactSize (0 + 1 + 1) = 1 ∧ getSizeOfCompactSize 2421 = 3 ∧
    getSizeOfCompactSize 1313 = 3 ∧ maxP2WPKHInputWeight = 3782 := ⟨rfl, rfl, rfl, rfl⟩
  omega

/-- Whether an input spends an output of the wallet's transactions that pays to a script hash. -/
def spendsScriptHash (mapWallet : Txid → Option CTransaction) (txin : CTxIn) : Bool :=
  (coinOf mapWallet txin.prevout).any fun out => isPayToScriptHash out.scriptPubKey

variable {mapWallet : Txid → Option CTransaction} {rnd : Nat → CKeyID → Uint256}
  {signed : CTransaction}

/-- A signed input that spends the wallet's own output weighs what is estimated, and 23 more if the
output pays to a script hash. -/
theorem signedWeight_signed (hfixed : FixedSizeSignatures P) (hkeys : keys.Consistent P)
    (hsign : keys.signTransaction P mapWallet rnd tx = (true, signed)) (htxin : txin ∈ signed.vin)
    (hmine : ∀ out, coinOf mapWallet txin.prevout = some out → keys.isMine out.scriptPubKey) :
    signedWeight txin = maxP2WPKHInputWeight + (if spendsScriptHash mapWallet txin then 23 else 0) ∧
      txin.scriptWitness ≠ [] := by
  obtain ⟨i, hi⟩ := mem_iff_getElem?.mp htxin
  obtain ⟨out, creator, d, hout, hd, hcomplete, hsig, hwitness⟩ := signTransaction_complete hsign hi
  -- what the input carries, by the kind of output that it spends
  have hcarries : KeyHashWitness d.scriptWitness ∧
      d.scriptSig.length = if isPayToScriptHash out.scriptPubKey then 23 else 0 := by
    obtain ⟨howned, -⟩ := owned_of_isMine hkeys (hmine out hout)
    subst hd
    generalize keys.keyOf out.scriptPubKey = id at howned
    generalize out.scriptPubKey = script at howned hcomplete ⊢
    cases howned with
    | pubkeyHash =>
      rw [not_complete_pubkeyHash hfixed] at hcomplete
      cases hcomplete
    | witnessKeyHash =>
      obtain ⟨hempty, hitems⟩ := spendsProgram_witness.signed hkeys.honestKeys hcomplete
      rw [isPayToScriptHash_witnessProgramScript, hempty]
      exact ⟨hitems, rfl⟩
    | wrapped _ hscript =>
      obtain ⟨hpush, hitems⟩ := (spendsProgram_wrapped hscript).signed hkeys.honestKeys hcomplete
      rw [isPayToScriptHash_payToScriptHashScript (Blob.size_eq _), hpush]
      exact ⟨hitems, by simp [witnessProgramScript, pushData, appendDataSize, Blob.size_eq]⟩
  have hany : spendsScriptHash mapWallet txin = isPayToScriptHash out.scriptPubKey := by
    rw [spendsScriptHash, hout, Option.any_some]
  obtain ⟨hitems, hlength⟩ := hcarries
  rw [← hwitness] at hitems
  rw [← hsig] at hlength
  constructor
  · rw [signedWeight_keyHash hitems (by rw [hlength]; split <;> decide), hlength, hany]
    split <;> rfl
  · obtain ⟨sig, pubkey, heq, -⟩ := hitems.items
    rw [heq]
    exact cons_ne_nil _ _

/-- The number of inputs that spend an output that pays to a script hash. -/
def wrappedCount (mapWallet : Txid → Option CTransaction) (vin : List CTxIn) : Nat :=
  vin.countP (spendsScriptHash mapWallet)

private theorem sum_signedWeight {vin : List CTxIn} (h : ∀ txin ∈ vin, signedWeight txin =
      maxP2WPKHInputWeight + if spendsScriptHash mapWallet txin then 23 else 0) :
    (vin.map signedWeight).sum = vin.length * maxP2WPKHInputWeight + 23 *
    wrappedCount mapWallet vin := by
  induction vin with
  | nil => rfl
  | cons txin rest ih =>
    have hrest := ih fun other hother => h other (mem_cons_of_mem _ hother)
    rw [wrappedCount] at hrest
    rw [map_cons, sum_cons, hrest, h txin mem_cons_self, length_cons, wrappedCount, countP_cons,
      Int.natCast_add, add_mul]
    split <;> omega

/-- A signed transaction that spends the wallet's own outputs weighs 23 more for each that pays to a
script hash. -/
theorem getTransactionWeight_signed (hfixed : FixedSizeSignatures P) (hkeys : keys.Consistent P)
    (hsign : keys.signTransaction P mapWallet rnd tx = (true, signed)) (hvin : signed.vin ≠ [])
    (hmine : ∀ txin ∈ signed.vin, ∀ out, coinOf mapWallet txin.prevout = some out →
      keys.isMine out.scriptPubKey) :
    getTransactionWeight signed = 10 + getSizeOfCompactSize signed.vin.length +
      getSizeOfCompactSize signed.vout.length + (signed.vout.map outputSize).sum +
        signed.vin.length * maxP2WPKHInputWeight + 23 * wrappedCount mapWallet signed.vin := by
  have hinput : ∀ txin ∈ signed.vin, signedWeight txin = maxP2WPKHInputWeight +
      (if spendsScriptHash mapWallet txin then 23 else 0) ∧ txin.scriptWitness ≠ [] :=
    fun txin htxin => signedWeight_signed hfixed hkeys hsign htxin (hmine txin htxin)
  have hwitness : signed.hasWitness := by
    obtain ⟨txin, rest, heq⟩ := exists_cons_of_ne_nil hvin
    have hmem : txin ∈ signed.vin := heq ▸ mem_cons_self
    rw [CTransaction.hasWitness, any_eq_true]
    refine ⟨txin, hmem, ?_⟩
    rw [Bool.not_eq_true', isEmpty_eq_false_iff]
    exact (hinput txin hmem).2
  rw [getTransactionWeight_eq hwitness, sum_signedWeight fun txin htxin => (hinput txin htxin).1]
  omega

end Inputs

/-! ### The estimate -/

section Estimate

variable {R : RandomSource} {sorts : Sorts} {wallet : SpendWallet} {cc : CCoinControl}
  {vecSend : List CRecipient}

private theorem spentOutputs_congr {vin vin' : List CTxIn}
    (h : vin.map CTxIn.prevout = vin'.map CTxIn.prevout) :
    spentOutputs wallet cc vin = spentOutputs wallet cc vin' := by
  induction vin generalizing vin' with
  | nil => rw [map_eq_nil_iff.mp h.symm]
  | cons txin rest ih =>
    cases vin' with
    | nil => cases h
    | cons txin' rest' =>
      obtain ⟨hprevout, hrest⟩ := cons.inj h
      rw [spentOutputs, spentOutputs, hprevout, ih hrest]

/-- The estimate only depends on what is spent and on how large the outputs are. -/
theorem calculateMaximumSignedTxSize_congr {tx' : CTransaction}
    (hvin : tx.vin.map CTxIn.prevout = tx'.vin.map CTxIn.prevout)
    (hvout : tx.vout.map outputSize = tx'.vout.map outputSize) :
    calculateMaximumSignedTxSize wallet cc tx = calculateMaximumSignedTxSize wallet cc tx' := by
  have hinputs : tx.vin.length = tx'.vin.length := by
    have hlength := congrArg length hvin
    rwa [length_map, length_map] at hlength
  have houtputs : tx.vout.length = tx'.vout.length := by
    have hlength := congrArg length hvout
    rwa [length_map, length_map] at hlength
  have hweights : (tx.vin.map fun txin => signedInputWeight (some cc) txin.prevout) =
      tx'.vin.map fun txin => signedInputWeight (some cc) txin.prevout := by
    have hmap := congrArg (map (signedInputWeight (some cc))) hvin
    rwa [map_map, map_map] at hmap
  rw [calculateMaximumSignedTxSize, spentOutputs_congr hvin]
  congr 1
  funext txouts
  cases txouts with
  | none => rfl
  | some txouts =>
    dsimp only
    rw [signedTxSizeOf, signedTxSizeOf, hinputs, houtputs, hweights, hvout]

private theorem calculateMaximumSignedTxSize_eq
    (hnone : ∀ outpoint, cc.getInputWeight outpoint = none) (hvin : tx.vin ≠ []) {size : TxSize}
    (hsize : calculateMaximumSignedTxSize wallet cc tx = .ok size) (hknown : size.vsize ≠ -1) :
    size.weight = 10 + getSizeOfCompactSize tx.vin.length + getSizeOfCompactSize tx.vout.length +
        (tx.vout.map outputSize).sum + tx.vin.length * maxP2WPKHInputWeight ∧
      size.vsize = getVirtualTransactionSize size.weight := by
  obtain ⟨txouts, htxouts, rfl⟩ := except_map_eq_ok_iff.mp hsize
  cases txouts with
  | none => exact absurd rfl hknown
  | some txouts =>
    have hsome : txouts.isEmpty = false := by
      obtain ⟨txin, rest, heq⟩ := exists_cons_of_ne_nil hvin
      rw [heq] at htxouts
      exact spentOutputs_ne_nil htxouts
    have hinputs : (tx.vin.map fun txin => signedInputWeight (some cc) txin.prevout).sum =
        tx.vin.length * maxP2WPKHInputWeight := by
      refine sum_map_eq_length_mul fun txin _ => ?_
      rw [signedInputWeight, Option.bind_some, hnone, Option.getD_none]
    dsimp only
    rw [signedTxSizeOf]
    dsimp only
    rw [hsome, if_neg Bool.false_ne_true]
    omega

/-! ### The outputs of the draft and of the transaction -/

private theorem outputSize_of_script (txout : CTxOut) : outputSize txout =
    outputSize ⟨0, txout.scriptPubKey⟩ :=
  outputSize_eq txout.nValue 0 txout.scriptPubKey

variable {vout : List CTxOut} {vout' : List CTxOut}

private theorem map_outputSize_of_scripts
    (h : vout.map CTxOut.scriptPubKey = vout'.map CTxOut.scriptPubKey) : vout.map outputSize =
      vout'.map outputSize := by
  have hmap := congrArg (map fun script => outputSize ⟨0, script⟩) h
  rw [map_map, map_map] at hmap
  have hsize : (fun script => outputSize ⟨0, script⟩) ∘ CTxOut.scriptPubKey = outputSize := by
    funext txout
    exact (outputSize_of_script txout).symm
  rwa [hsize] at hmap

private theorem scripts_payShares (shortfall : Int) (count : Nat) (first : Bool)
    (vecSend : List CRecipient) :
    (payShares shortfall count first vecSend).map CTxOut.scriptPubKey =
      (vecSend.map CRecipient.txout).map CTxOut.scriptPubKey := by
  induction vecSend generalizing first with
  | nil => rfl
  | cons recipient rest ih =>
    rw [payShares]
    split
    · rw [map_cons, ih]
      rfl
    · rw [map_cons, ih]
      rfl

private theorem scripts_placeChangeIn {change change' : Change}
    (hchange : change.map (fun placed => (placed.1, placed.2.scriptPubKey)) =
      change'.map fun placed => (placed.1, placed.2.scriptPubKey))
    (hvout : vout.map CTxOut.scriptPubKey = vout'.map CTxOut.scriptPubKey) :
    (placeChangeIn change vout).map CTxOut.scriptPubKey = (placeChangeIn change' vout').map
      CTxOut.scriptPubKey := by
  rcases change with _ | ⟨pos, txout⟩
  · cases change' with
    | none => exact hvout
    | some placed => cases hchange
  · rcases change' with _ | ⟨pos', txout'⟩
    · cases hchange
    · obtain ⟨hpos, hscript⟩ := Prod.mk.inj (Option.some.inj hchange)
      dsimp only at hpos hscript
      rw [placeChangeIn, placeChangeIn, map_insertIdx, map_insertIdx, hvout, hpos, hscript]

/-- Settling the fee changes amounts only, and pays what is needed at least. -/
theorem settleFees_eq_ok {change : Change} {draft : Draft} {selected feeNeeded fee : Int}
    (h : Drafted vecSend change draft)
    (hok : settleFees wallet vecSend selected feeNeeded draft = .ok (vout, fee)) :
    vout.map CTxOut.scriptPubKey = draft.tx.vout.map CTxOut.scriptPubKey ∧ feeNeeded ≤ fee := by
  have hcases := @settleFees_cases wallet vecSend change draft selected feeNeeded h
  rw [hok] at hcases
  cases hcases with
  | settled _ _ hfinal hneeded _ =>
    refine ⟨?_, hneeded⟩
    rw [h.vout]
    refine scripts_placeChangeIn ?_ (scripts_payShares _ _ _ _)
    rw [hfinal, enlargeChange, Option.map_map]
    rfl

/-! ### The wallet's own coins -/

/-- The recorded outputs are those of recorded transactions that are the wallet's own, and none of
them pays to the hash of its own script. -/
structure SpendWallet.RecordsOwn (P : Primitives) (wallet : SpendWallet) : Prop where
  output : ∀ txo ∈ wallet.txos, coinOf wallet.mapWallet txo.outpoint = some txo.txout
  mine : ∀ txo ∈ wallet.txos, wallet.keys.isMine txo.txout.scriptPubKey = true
  notOwnHash : ∀ txo ∈ wallet.txos, solver txo.txout.scriptPubKey ≠
    .scripthash (hash160 P txo.txout.scriptPubKey)

private theorem isPayToScriptHash_of_coinType {script : CScript} {type : OutputType}
    (h : coinType P wallet script = .ok (some type))
    (hself : solver script ≠ .scripthash (hash160 P script)) :
    isPayToScriptHash script = false := by
  rw [← Bool.not_eq_true]
  intro hscript
  obtain ⟨hash, hsolver⟩ := exists_solver_scripthash hscript
  rw [coinType, hsolver, SpendWallet.getSolvingProvider] at h
  have hne : hash ≠ hash160 P script := fun heq => hself (by rw [hsolver, heq])
  cases hmine : wallet.keys.isMine script with
  | true =>
    simp only [hmine, if_true, if_neg hne] at h
    cases h
  | false =>
    simp only [hmine, Bool.false_eq_true, if_false] at h
    cases h

/-- What `AvailableCoins` returns is the wallet's own, and does not pay to a script hash. -/
theorem SpendWallet.RecordsOwn.available (hown : wallet.RecordsOwn P) {feerate : CFeeRate}
    {available : CoinsResult} (hok : availableCoins P wallet cc feerate = .ok available)
    {coin : COutput} (hcoin : coin ∈ available.all) {out : CTxOut}
    (hout : coinOf wallet.mapWallet coin.outpoint = some out) :
    wallet.keys.isMine out.scriptPubKey ∧ isPayToScriptHash out.scriptPubKey = false := by
  obtain ⟨txo, htxo, hsame, htxout, type, htype⟩ := (availableCoins_spec hok coin hcoin).txo
  rw [← hsame, hown.output txo htxo] at hout
  obtain rfl := Option.some.inj hout
  rw [← htxout] at htype
  exact ⟨hown.mine txo htxo, isPayToScriptHash_of_coinType htype (hown.notOwnHash txo htxo)⟩

section Pays

variable {coins : List COutput} {created : CreatedTransactionResult}
  (h : PaysAsAsked P wallet cc vecSend coins created) (hown : wallet.RecordsOwn P)

include h hown

/-- An input that is not chosen by hand is the wallet's own, and does not pay to a script hash. -/
theorem PaysAsAsked.vin_cases {txin : CTxIn} (htxin : txin ∈ created.tx.vin) : txin.prevout ∈
      cc.listSelected ∨ ∀ out, coinOf wallet.mapWallet txin.prevout = some out →
        wallet.keys.isMine out.scriptPubKey ∧ isPayToScriptHash out.scriptPubKey = false := by
  have hmem := mem_map_of_mem (f := CTxIn.prevout) htxin
  rw [h.inputs] at hmem
  obtain ⟨coin, hcoin, hprevout⟩ := mem_map.mp hmem
  rw [← hprevout]
  rcases h.origin coin hcoin with hselected | ⟨-, available, hok, other, hother, hsame, -⟩
  · exact .inl hselected
  · rw [← hsame]
    exact .inr fun out hout => hown.available hok hother hout

private theorem PaysAsAsked.isMine_vin (hmine : ∀ outpoint ∈ cc.listSelected, ∀ out,
      coinOf wallet.mapWallet outpoint = some out → wallet.keys.isMine out.scriptPubKey)
    {txin : CTxIn} (htxin : txin ∈ created.tx.vin) {out : CTxOut}
    (hout : coinOf wallet.mapWallet txin.prevout = some out) :
    wallet.keys.isMine out.scriptPubKey := by
  rcases h.vin_cases hown htxin with hselected | havailable
  · exact hmine _ hselected out hout
  · exact (havailable out hout).1

private theorem PaysAsAsked.wrappedCount_eq_zero_iff : wrappedCount wallet.mapWallet
      created.tx.vin = 0 ↔
      ∀ outpoint ∈ cc.listSelected, ∀ out, coinOf wallet.mapWallet outpoint = some out →
        isPayToScriptHash out.scriptPubKey = false := by
  have hcount : wrappedCount wallet.mapWallet created.tx.vin = 0 ↔ ∀ txin ∈ created.tx.vin, ∀ out,
      coinOf wallet.mapWallet txin.prevout = some out →
      isPayToScriptHash out.scriptPubKey = false := by
    rw [wrappedCount, countP_eq_zero]
    refine forall₂_congr fun txin _ => ?_
    rw [spendsScriptHash, Bool.not_eq_true, Option.any_eq_false]
  rw [hcount]
  constructor
  · intro hall outpoint houtpoint
    obtain ⟨txin, htxin, rfl⟩ := mem_map.mp (h.preset outpoint houtpoint)
    exact hall txin htxin
  · intro hall txin htxin out hout
    rcases h.vin_cases hown htxin with hselected | havailable
    · exact hall _ hselected out hout
    · exact (havailable out hout).2

end Pays

/-- What is known of a transaction that was signed: the estimate for it, what it weighs beyond that,
and that the fee covers the estimate. -/
structure SignedAsEstimated (wallet : SpendWallet) (cc : CCoinControl) (feerate : CFeeRate)
    (created : CreatedTransactionResult) (size : TxSize) : Prop where
  estimate : calculateMaximumSignedTxSize wallet cc created.tx = .ok size
  weight : getTransactionWeight created.tx = size.weight + 23 * wrappedCount wallet.mapWallet
    created.tx.vin
  vsize : size.vsize = getVirtualTransactionSize size.weight
  fee : feerate.getFee size.vsize ≤ created.fee
  wrapped : wrappedCount wallet.mapWallet created.tx.vin = 0 ↔
    ∀ outpoint ∈ cc.listSelected, ∀ out, coinOf wallet.mapWallet outpoint = some out →
      isPayToScriptHash out.scriptPubKey = false

variable {changePos : Option Nat} {rnd : Nat → CKeyID → Uint256}
  {newDestination : Except String CTxDestination} {rng rng' : R.State}
  {created : CreatedTransactionResult}

private theorem spentOutputs_groupedControl (created : CreatedTransactionResult)
    (vin : List CTxIn) :
    spentOutputs wallet (groupedControl cc created) vin = spentOutputs wallet cc vin := by
  induction vin with
  | nil => rfl
  | cons txin rest ih =>
    rw [spentOutputs, ih]
    rfl

variable {rndGrouped : Nat → CKeyID → Uint256}
  {newDestinationGrouped : Except String CTxDestination}

/-- A transaction that `CreateTransaction` returns is one of either attempt. -/
theorem createTransaction_returns {sign : Bool}
    (h : (createTransaction P R sorts wallet cc vecSend changePos sign rnd rndGrouped newDestination
      newDestinationGrouped).Returns rng created rng') :
    (∃ rng₁ rng₂, (createTransactionInternal P R sorts wallet cc vecSend changePos sign rnd
      newDestination).Returns rng₁ created rng₂) ∨
    ∃ first rng₁ rng₂, (createTransactionInternal P R sorts wallet (groupedControl cc first) vecSend
      changePos sign rndGrouped newDestinationGrouped).Returns rng₁ created rng₂ := by
  simp only [createTransaction, returns_bind_iff] at h
  obtain ⟨_, _, -, _, _, -, first, rng₁, hfirst, h⟩ := h
  split at h
  · obtain ⟨grouped, rng₂, hgrouped, h⟩ := returns_bind_iff.mp h
    obtain ⟨rfl, -⟩ := returns_pure_iff.mp h
    cases grouped with
    | none => exact .inl ⟨_, _, hfirst⟩
    | some second =>
      rw [preferGrouped]
      split
      · refine .inr ⟨first, rng₁, rng₂, ?_⟩
        obtain ⟨houtcome, hrng⟩ := Prod.mk.inj hgrouped
        generalize hexec : createTransactionInternal P R sorts wallet (groupedControl cc first)
          vecSend changePos sign rndGrouped newDestinationGrouped rng₁ = executed at houtcome hrng
        rcases executed with ⟨e | result, rng'⟩
        · cases e <;> cases houtcome
        · cases houtcome
          cases hrng
          exact hexec
      · exact .inl ⟨_, _, hfirst⟩
  · obtain ⟨rfl, -⟩ := returns_pure_iff.mp h
    exact .inl ⟨_, _, hfirst⟩

section Signed

variable (hfixed : FixedSizeSignatures P) (hkeys : wallet.keys.Consistent P)
  (hchain : wallet.chain.BumpFeesNonneg)
  (hown : wallet.RecordsOwn P) (hnone : ∀ outpoint, cc.getInputWeight outpoint = none)
  (hmine : ∀ outpoint ∈ cc.listSelected, ∀ out,
    coinOf wallet.mapWallet outpoint = some out → wallet.keys.isMine out.scriptPubKey)

include hfixed hkeys hchain hown hnone hmine

private theorem signedAsEstimated
    (hcreated : (createTransactionInternal P R sorts wallet cc vecSend changePos true rnd
      newDestination).Returns rng created rng') :
    ∃ size, SignedAsEstimated wallet cc (wallet.getMinimumFeeRate cc).1 created size := by
  simp only [createTransactionInternal, returns_bind_iff] at hcreated
  obtain ⟨plan, rng₁, hplan, result, rng₂, hresult, draft, rng₃, hdraft, hrest⟩ := hcreated
  have hplanned := yields_planFunding _ _ _ hplan
  have hselected := yields_selectFunds hplanned _ _ _ hresult
  have hbump := yields_selectFunds_bumpFees hchain _ _ _ hresult
  obtain ⟨coins, change, hassembled⟩ := yields_assemble _ _ _ hdraft
  have hfinished := finish_eq_ok (returns_ofExcept_iff.mp hrest).1
  have hpays := paysAsAsked_of_finished hplanned hselected hassembled hfinished
  obtain ⟨⟨size, vout, hsize, hsettle, hsign⟩, -⟩ := hfinished
  obtain ⟨hscripts, hfee⟩ := settleFees_eq_ok hassembled.drafted hsettle
  -- signing leaves what the estimate depends on
  have hunsigned := signIfAsked_unsigned hsign
  have hprevouts := prevouts_of_unsigned hunsigned
  have hvin : created.tx.vin ≠ [] := by
    intro hempty
    rw [hempty] at hprevouts
    have hdraftVin := map_eq_nil_iff.mp hprevouts.symm
    rw [hassembled.vin, map_eq_nil_iff] at hdraftVin
    rw [hdraftVin] at hassembled
    exact hselected.funds.nonempty hassembled.perm.nil_eq.symm
  have hsame : calculateMaximumSignedTxSize wallet cc created.tx =
      calculateMaximumSignedTxSize wallet cc draft.tx := by
    apply calculateMaximumSignedTxSize_congr
    · exact hprevouts
    · rw [vout_of_unsigned hunsigned]
      exact map_outputSize_of_scripts hscripts
  obtain ⟨found, hfound, hsize⟩ := bind_eq_ok_iff.mp hsize
  split at hsize
  · cases hsize
  next hknown =>
    cases hsize
    have hestimate := hsame.trans (orAbort_eq_ok hfound)
    obtain ⟨hweight, hvsize⟩ := calculateMaximumSignedTxSize_eq hnone hvin hestimate hknown
    have hsigned : wallet.keys.signTransaction P wallet.mapWallet rnd
        { draft.tx with vout := vout } = (true, created.tx) := by
      rw [signIfAsked, if_pos rfl] at hsign
      split at hsign
      next heq =>
        cases hsign
        exact heq
      · cases hsign
    refine ⟨size, hestimate, ?_, hvsize, ?_, hpays.wrappedCount_eq_zero_iff hown⟩
    · rw [getTransactionWeight_signed hfixed hkeys hsigned hvin
        (fun _ htxin _ hout => hpays.isMine_vin hown hmine htxin hout), hweight]
    · rw [neededFee, hplanned.effectiveFeerate] at hfee
      omega

/-- A signed transaction of either attempt weighs what was estimated for it, and what the estimate
leaves out. -/
theorem createTransaction_signedAsEstimated
    (hrate : ∀ created, wallet.getMinimumFeeRate (groupedControl cc created) =
      wallet.getMinimumFeeRate cc)
    (hcreated : (createTransaction P R sorts wallet cc vecSend changePos true rnd rndGrouped
      newDestination newDestinationGrouped).Returns rng created rng') :
    ∃ size, SignedAsEstimated wallet cc (wallet.getMinimumFeeRate cc).1 created size := by
  rcases createTransaction_returns hcreated with ⟨_, _, hfirst⟩ | ⟨first, _, _, hsecond⟩
  · exact signedAsEstimated hfixed hkeys hchain hown hnone hmine hfirst
  obtain ⟨size, hsize⟩ := signedAsEstimated hfixed hkeys hchain hown (by exact hnone)
    (by exact hmine) hsecond
  refine ⟨size, ?_, hsize.weight, hsize.vsize, hrate first ▸ hsize.fee, hsize.wrapped⟩
  -- the second attempt estimates sizes as the first one does
  rw [calculateMaximumSignedTxSize, ← spentOutputs_groupedControl first]
  exact hsize.estimate

end Signed

end Estimate

/-- A signed transaction weighs no more than was estimated, and pays its feerate, exactly if no
output that was chosen by hand pays to a script hash. -/
theorem createTransaction_estimate_iff (P : Primitives) (hfixed : FixedSizeSignatures P)
    (R : RandomSource) (sorts : Sorts) (wallet : SpendWallet) (ops : List KeyOp)
    (hkeys : wallet.keys = run (step P) (new .empty) ops) (hchain : wallet.chain.BumpFeesNonneg)
    (hown : wallet.RecordsOwn P) (cc : CCoinControl)
    (hrate : ∀ created, wallet.getMinimumFeeRate (groupedControl cc created) =
      wallet.getMinimumFeeRate cc)
    (hnone : ∀ outpoint, cc.getInputWeight outpoint = none)
    (hmine : ∀ outpoint ∈ cc.listSelected, ∀ out, coinOf wallet.mapWallet outpoint = some out →
      wallet.keys.isMine out.scriptPubKey = true)
    (vecSend : List CRecipient) (changePos : Option Nat) (rnd rndGrouped : Nat → CKeyID → Uint256)
    (newDestination newDestinationGrouped : Except String CTxDestination) {rng rng' : R.State}
    {created : CreatedTransactionResult}
    (hcreated : (createTransaction P R sorts wallet cc vecSend changePos true rnd rndGrouped
      newDestination newDestinationGrouped).Returns rng created rng') :
    (∃ size, calculateMaximumSignedTxSize wallet cc created.tx = .ok size ∧
        getTransactionWeight created.tx ≤ size.weight ∧
        (wallet.getMinimumFeeRate cc).1.getFee
          (getVirtualTransactionSize (getTransactionWeight created.tx)) ≤ created.fee) ↔
      ∀ outpoint ∈ cc.listSelected, ∀ out, coinOf wallet.mapWallet outpoint = some out →
        isPayToScriptHash out.scriptPubKey = false := by
  obtain ⟨size, hsize⟩ := createTransaction_signedAsEstimated hfixed (hkeys ▸ consistent_run ops)
    hchain hown hnone hmine hrate hcreated
  rw [← hsize.wrapped]
  constructor
  · rintro ⟨size', hsize', hle, -⟩
    rw [hsize.estimate] at hsize'
    cases hsize'
    have hweight := hsize.weight
    omega
  · intro hzero
    have hweight : getTransactionWeight created.tx = size.weight := by
      rw [hsize.weight, hzero]
      omega
    refine ⟨size, hsize.estimate, le_of_eq hweight, ?_⟩
    rw [hweight, ← hsize.vsize]
    exact hsize.fee

/-! ### Signing comes last -/

section Last

variable {R : RandomSource} {sorts : Sorts} {wallet : SpendWallet} {cc : CCoinControl}
  {vecSend : List CRecipient} {created : CreatedTransactionResult} {signed : CTransaction}
  {rng rng' : R.State}
  {changePos : Option Nat} {rnd : Nat → CKeyID → Uint256}
  {newDestination : Except String CTxDestination}

/-- A transaction that is made without signatures is made with them if it can be signed and is not
too large. -/
theorem createTransactionInternal_sign
    (hcreated : (createTransactionInternal P R sorts wallet cc vecSend changePos false rnd
      newDestination).Returns rng
      created rng') (hsign : wallet.keys.signTransaction P wallet.mapWallet rnd created.tx =
      (true, signed))
    (hweight : getTransactionWeight signed ≤ maxStandardTxWeight)
    (hchain : wallet.chain.checkChainLimits signed = none) :
    (createTransactionInternal P R sorts wallet cc vecSend changePos true rnd
      newDestination).Returns rng { created with tx := signed } rng' := by
  simp only [createTransactionInternal, returns_bind_iff] at hcreated ⊢
  obtain ⟨plan, rng₁, hplan, result, rng₂, hresult, draft, rng₃, hdraft, hrest⟩ := hcreated
  obtain ⟨hok, hrng⟩ := returns_ofExcept_iff.mp hrest
  refine ⟨plan, rng₁, hplan, result, rng₂, hresult, draft, rng₃, hdraft,
    returns_ofExcept_iff.mpr ⟨?_, hrng⟩⟩
  simp only [finish, bind_eq_ok_iff] at hok ⊢
  obtain ⟨size, hsize, settled, hsettled, _, hchange, tx, htx, _, hchecked, hok⟩ := hok
  cases hok
  cases htx
  -- the checks at the end only look at the weight, the fee and the limits of the chain
  have hsigned : signIfAsked P wallet true rnd { draft.tx with vout := settled.1 } =
      .ok signed := by
    rw [signIfAsked, if_pos rfl, hsign]
  have hfee : ¬ wallet.defaultMaxTxFee < settled.2 := by
    intro hover
    rw [checkCreated] at hchecked
    generalize (if false = true then _ else _ : Int) = weight at hchecked
    split at hchecked
    · cases hchecked
    · cases hchecked
  have hpasses : checkCreated wallet true size signed settled.2 = .ok () := by
    rw [checkCreated, if_pos rfl, if_neg (not_lt.mpr hweight), if_neg hfee, hchain, ite_self]
  exact ⟨size, hsize, settled, hsettled, (), hchange, signed, hsigned, (), hpasses, rfl⟩

end Last

/-! ### An example -/

namespace SpendExample

open KeyCore.OneAddress

/-- The witness program of the wallet's key. -/
def program : CScript := witnessProgramScript keyid.data

/-- The same program behind a script hash. -/
def wrapped : CScript := payToScriptHashScript (hash160 .repeating program).data

/-- A wallet with one address and one coin that pays to a script. -/
def ownWallet (script : CScript) : SpendWallet :=
  { SpendExample.wallet with
    keys := OneAddress.wallet
    mapWallet := Function.update (fun _ => none) outpoint.hash (some ⟨[], [⟨100000, script⟩], 2, 0⟩)
    txos := [⟨outpoint, ⟨100000, script⟩, ⟨2, 6, false, false, true, false, false, false, 0, false⟩,
      false, false, false⟩]
    maxApsFee := -1 }

/-- The coin is chosen by hand. -/
def ownControl : CCoinControl :=
  { coinControl 100000 with
    allowOtherInputs := false
    selected := [(outpoint, ⟨none, none, none, none, none, some 0⟩)]
    distinct := List.nodup_singleton _ }

def oneRecipient : List CRecipient := [⟨dest, 20000, false⟩]

/-- The transaction to the recipient before it is signed. -/
def createOwn (script : CScript) : CreateM random CreatedTransactionResult :=
  createTransactionInternal .repeating random sorts (ownWallet script) ownControl
    oneRecipient none false (fun _ _ => .null 32) (.error "")

/-- What is known of the transaction before it is signed. -/
def outcomeOf (created : CreatedTransactionResult) : Int × List Int × List COutPoint :=
  (created.fee, created.tx.vout.map outputSize, created.tx.vin.map CTxIn.prevout)

private theorem createOwn_program : ((createOwn program).exec ()).1.toOption.map outcomeOf =
    some (3856, [31, 31], [outpoint]) := by
  rfl

private theorem createOwn_wrapped : ((createOwn wrapped).exec ()).1.toOption.map outcomeOf =
    some (3856, [31, 31], [outpoint]) := by
  rfl

private theorem coinOf_outpoint (script : CScript) : coinOf (ownWallet script).mapWallet outpoint =
    some ⟨100000, script⟩ := by
  rfl

private theorem isMine_program : OneAddress.wallet.isMine program ∧
    OneAddress.wallet.keyOf program = keyid :=
  wallet_owns program (.inr (by rw [program, extractDestination, solver_keyHashProgram]))

private theorem isMine_wrapped : OneAddress.wallet.isMine wrapped ∧
    OneAddress.wallet.keyOf wrapped = keyid := by
  have hdest : extractDestination wrapped = some (.scriptHash (hash160 .repeating program)) := by
    rw [wrapped, extractDestination, solver_payToScriptHashScript]
  have hkey : getKeyForDestination OneAddress.wallet.provider
      (.scriptHash (hash160 .repeating program)) = keyid := by
    have hscript : OneAddress.wallet.provider.getCScript (hash160 .repeating program) =
        some program := by
      dsimp only [provider, program]
      rw [wallet_maps.2]
    rw [getKeyForDestination, hscript]
    dsimp only
    rw [program, extractDestination, solver_keyHashProgram]
  have hnull : keyid.isNull = false := by decide
  have hhave : OneAddress.wallet.haveKey keyid := by
    rw [haveKey, wallet_mapKeys, Option.isSome_some]
  simp [isMine, keyOf, hdest, hkey, hnull, hhave]

variable {script : CScript}

private theorem spendable_own (hkey : OneAddress.wallet.keyOf script = keyid)
    (hne : ∀ id : CKeyID, script ≠ payToPubkeyHashScript id.data) :
    OneAddress.wallet.Spendable ⟨100000, script⟩ := by
  refine ⟨hne, ?_⟩
  rw [hkey]
  have hmoney : moneyRange 100000 := by decide
  exact ⟨by rw [provider_getKey, wallet_mapKeys, Option.isSome_some], hmoney, by decide⟩

private theorem solver_program : solver program = .witnessV0Keyhash keyid :=
  solver_keyHashProgram keyid

private theorem solver_wrapped : solver wrapped = .scripthash (hash160 .repeating program) :=
  solver_payToScriptHashScript _

private theorem not_pubkeyHash (hsolver : ∀ id, solver script ≠ .pubkeyhash id) (id : CKeyID) :
    script ≠ payToPubkeyHashScript id.data := by
  rintro rfl
  exact hsolver id (solver_payToPubkeyHashScript id)

def createSigned (script : CScript) : CreateM random CreatedTransactionResult :=
  createTransaction .repeating random sorts (ownWallet script) ownControl oneRecipient none true
    (fun _ _ => .null 32) (fun _ _ => .null 32) (.error "") (.error "")

/-- The transaction of the example is signed and returned, with the coin as its only input. -/
theorem createSigned_returns (hmine : OneAddress.wallet.isMine script)
    (hspend : OneAddress.wallet.Spendable ⟨100000, script⟩)
    (houtcome : ((createOwn script).exec ()).1.toOption.map outcomeOf =
      some (3856, [31, 31], [outpoint])) :
    ∃ created, (createSigned script).Returns () created () ∧ outcomeOf created =
      (3856, [31, 31], [outpoint]) := by
  obtain ⟨created, hoption, hout⟩ := Option.map_eq_some_iff.mp houtcome
  obtain ⟨hfee, hrest⟩ := Prod.mk.inj hout
  obtain ⟨hsizes, hprevouts⟩ := Prod.mk.inj hrest
  have hinputs : ∀ vin : List CTxIn, vin.map prevout = [outpoint] → ∀ txin ∈ vin,
      coinOf (ownWallet script).mapWallet txin.prevout = some ⟨100000, script⟩ := by
    intro vin hvin txin htxin
    have hmem := mem_map_of_mem (f := prevout) htxin
    rw [hvin] at hmem
    rw [mem_singleton.mp hmem]
    exact coinOf_outpoint script
  have hconsistent : OneAddress.wallet.Consistent .repeating := consistent_run ops
  obtain ⟨signed, hsigned⟩ := signTransaction_of_spendable fixedSizeSignatures
    signaturesVerify hconsistent (fun _ _ => .null 32)
    fun txin htxin => ⟨⟨100000, script⟩, hinputs _ hprevouts txin htxin, hmine, hspend⟩
  -- signing keeps the outputs and what is spent
  have hunsigned := signTransaction_unsigned (P := .repeating) OneAddress.wallet
    (ownWallet script).mapWallet (fun _ _ => .null 32) created.tx
  rw [hsigned] at hunsigned
  have hsignedPrevouts := (prevouts_of_unsigned hunsigned).trans hprevouts
  have hsignedSizes : signed.vout.map outputSize = [31, 31] := by
    rw [vout_of_unsigned hunsigned]
    exact hsizes
  have hone : signed.vin.length = 1 := by
    have hlength := congrArg length hsignedPrevouts
    rwa [length_map] at hlength
  have htwo : signed.vout.length = 2 := by
    have hlength := congrArg length hsignedSizes
    rwa [length_map] at hlength
  have hweight : getTransactionWeight signed ≤ maxStandardTxWeight := by
    have hcount : wrappedCount (ownWallet script).mapWallet signed.vin ≤ signed.vin.length :=
      countP_le_length
    rw [getTransactionWeight_signed fixedSizeSignatures hconsistent hsigned
      (fun hempty => by rw [hempty] at hone; cases hone) ?_, hone, htwo, hsignedSizes]
    · rw [hone] at hcount
      have hsizes : getSizeOfCompactSize 1 = 1 ∧ getSizeOfCompactSize 2 = 1 ∧
        maxP2WPKHInputWeight = 3782 ∧ maxStandardTxWeight = 400000 := ⟨rfl, rfl, rfl, rfl⟩
      simp only [sum_cons, sum_nil]
      omega
    · intro txin htxin out hcoin
      rw [hinputs _ hsignedPrevouts txin htxin] at hcoin
      cases hcoin
      exact hmine
  have hfirst := @createTransactionInternal_sign .repeating random sorts (ownWallet script)
    ownControl oneRecipient
    created signed () () none (fun _ _ => .null 32) (.error "") (returns_of_toOption hoption)
      hsigned hweight rfl
  refine ⟨{ created with tx := signed },
    returns_bind_iff.mpr ⟨(), (), rfl, returns_bind_iff.mpr ⟨(), (), rfl,
    returns_bind_iff.mpr ⟨_, (), hfirst, ?_⟩⟩⟩, ?_⟩
  · -- the first attempt is the only one, since coins are not to be grouped
    have hone : triesGrouped (ownWallet script) ownControl { created with tx := signed } = false :=
      Bool.and_eq_false_iff.mpr (.inl (Bool.and_false _))
    rw [hone]
    rfl
  · rw [outcomeOf, hsignedSizes, hsignedPrevouts]
    exact Prod.ext hfee rfl

private theorem getInputWeight_ownControl (o : COutPoint) : ownControl.getInputWeight o = none := by
  rw [CCoinControl.getInputWeight, Option.bind_eq_none_iff]
  intro preset hpreset
  rw [(Prod.mk.inj (mem_singleton.mp (mem_of_lookup hpreset))).2]

/-- The coin is the only one that is chosen by hand. -/
theorem coin_of_selected {o : COutPoint} (ho : o ∈ ownControl.listSelected) {out : CTxOut}
    (hout : coinOf (ownWallet script).mapWallet o = some out) : out = ⟨100000, script⟩ := by
  rw [mem_singleton.mp ho, coinOf_outpoint] at hout
  exact (Option.some.inj hout).symm

private theorem recordsOwn_ownWallet (hmine : OneAddress.wallet.isMine script)
    (hself : solver script ≠ .scripthash (hash160 .repeating script)) :
    (ownWallet script).RecordsOwn .repeating where
  output txo htxo := by
    rw [mem_singleton.mp htxo]
    exact coinOf_outpoint script
  mine txo htxo := by
    rw [mem_singleton.mp htxo]
    exact hmine
  notOwnHash txo htxo := by
    rw [mem_singleton.mp htxo]
    exact hself

variable {created : CreatedTransactionResult}

section

variable (h : outcomeOf created = (3856, [31, 31], [outpoint]))

include h

private theorem vin_of_outcome : ∃ txin, created.tx.vin = [txin] ∧ txin.prevout = outpoint := by
  have hprevouts := congrArg (fun outcome => outcome.2.2) h
  obtain ⟨txin, rest, hvin, hprevout, hrest⟩ := map_eq_cons_iff.mp hprevouts
  rw [map_eq_nil_iff.mp hrest] at hvin
  exact ⟨txin, hvin, hprevout⟩

private theorem weight_of_outcome {feerate : CFeeRate} {size : TxSize}
    (hsize : SignedAsEstimated (ownWallet script) ownControl feerate created size) :
    size.weight = 3856 := by
  obtain ⟨txin, hvin, -⟩ := vin_of_outcome h
  have hsizes : created.tx.vout.map outputSize = [31, 31] := congrArg (fun outcome => outcome.2.1) h
  have hlength : created.tx.vout.length = 2 := by
    have hmap := congrArg length hsizes
    rwa [length_map] at hmap
  have hknown : size.vsize ≠ -1 := by
    have hnonneg : 0 ≤ getVirtualTransactionSize size.weight := le_max_right _ _
    rw [hsize.vsize]
    omega
  obtain ⟨hweight, -⟩ := calculateMaximumSignedTxSize_eq getInputWeight_ownControl
    (fun hempty => by rw [hvin] at hempty; cases hempty) hsize.estimate hknown
  have hparts : getSizeOfCompactSize 1 = 1 ∧ getSizeOfCompactSize 2 = 1 ∧ maxP2WPKHInputWeight =
    3782 := ⟨rfl, rfl, rfl⟩
  rw [hweight, hvin, hlength, hsizes]
  simp only [length_singleton, sum_cons, sum_nil]
  omega

end

end SpendExample

open SpendExample KeyCore.OneAddress in
/-- The wallet's own coin behind a script hash, chosen by hand, makes a transaction that weighs 23
more than was estimated and pays less than its feerate. -/
theorem createTransaction_underestimated :
    OneAddress.wallet.isMine wrapped = true ∧
    (∀ outpoint, ownControl.getInputWeight outpoint = none) ∧
      ∃ created size, (createTransaction .repeating random sorts (ownWallet wrapped) ownControl
        oneRecipient none true
          (fun _ _ => .null 32) (fun _ _ => .null 32) (.error "") (.error "")).Returns
            () created () ∧
        calculateMaximumSignedTxSize (ownWallet wrapped) ownControl created.tx = .ok size ∧
        getTransactionWeight created.tx = size.weight + 23 ∧
        created.fee < ((ownWallet wrapped).getMinimumFeeRate ownControl).1.getFee
          (getVirtualTransactionSize (getTransactionWeight created.tx)) := by
  obtain ⟨hmine, hkey⟩ := isMine_wrapped
  have hspend := spendable_own hkey
    (not_pubkeyHash fun id h => by rw [solver_wrapped] at h; cases h)
  have hself : solver wrapped ≠ .scripthash (hash160 .repeating wrapped) := by
    rw [solver_wrapped]
    decide
  obtain ⟨created, hcreated, houtcome⟩ := createSigned_returns hmine hspend createOwn_wrapped
  obtain ⟨size, hsize⟩ := createTransaction_signedAsEstimated fixedSizeSignatures
    (consistent_run ops)
    bumpFeesNonneg_chain (recordsOwn_ownWallet hmine hself) getInputWeight_ownControl
      (fun o ho out hout => by
      rw [coin_of_selected ho hout]
      exact hmine) (fun _ => rfl) hcreated
  have hcount : wrappedCount (ownWallet wrapped).mapWallet created.tx.vin = 1 := by
    obtain ⟨txin, hvin, hprevout⟩ := vin_of_outcome houtcome
    rw [hvin, wrappedCount, countP_singleton, spendsScriptHash, hprevout, coinOf_outpoint]
    rfl
  have hweight : getTransactionWeight created.tx = size.weight + 23 := by
    rw [hsize.weight, hcount]
    rfl
  refine ⟨hmine, getInputWeight_ownControl, created, size, hcreated, hsize.estimate, hweight, ?_⟩
  rw [hweight, weight_of_outcome houtcome hsize]
  have hfee : created.fee = 3856 := congrArg Prod.fst houtcome
  rw [hfee]
  decide

open SpendExample KeyCore.OneAddress in
/-- The wallet's own coin that pays to the program itself makes a transaction as it was estimated.
-/
theorem createTransaction_estimate_iff_program :
    ∃ created, (createTransaction .repeating random sorts (ownWallet program) ownControl
      oneRecipient none true
        (fun _ _ => .null 32) (fun _ _ => .null 32) (.error "") (.error "")).Returns () created () ∧
      ∃ size, calculateMaximumSignedTxSize (ownWallet program) ownControl created.tx = .ok size ∧
        getTransactionWeight created.tx ≤ size.weight ∧
        ((ownWallet program).getMinimumFeeRate ownControl).1.getFee
          (getVirtualTransactionSize (getTransactionWeight created.tx)) ≤ created.fee := by
  obtain ⟨hmine, hkey⟩ := isMine_program
  have hspend := spendable_own hkey
    (not_pubkeyHash fun id h => by rw [solver_program] at h; cases h)
  obtain ⟨created, hcreated, houtcome⟩ := createSigned_returns hmine hspend createOwn_program
  refine ⟨created, hcreated, ?_⟩
  have hself : solver program ≠ .scripthash (hash160 .repeating program) := by
    rw [solver_program]
    exact nofun
  refine (createTransaction_estimate_iff .repeating fixedSizeSignatures random sorts
    (ownWallet program) ops rfl
    bumpFeesNonneg_chain (recordsOwn_ownWallet hmine hself) ownControl
      (fun _ => rfl) getInputWeight_ownControl
    (fun o ho out hout => ?_) oneRecipient none (fun _ _ => .null 32) (fun _ _ => .null 32)
      (.error "") (.error "")
    hcreated).mpr fun o ho out hout => ?_
  · rw [coin_of_selected ho hout]
    exact hmine
  · rw [coin_of_selected ho hout]
    exact isPayToScriptHash_witnessProgramScript keyid.data

end Tessera.Wallet
