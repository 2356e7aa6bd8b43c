import Tessera.Wallet.CreateTransaction
import Tessera.Wallet.SelectionProvenance

/-!
# Where the coins to choose from come from

The coins that `FetchSelectedInputs` and `AvailableCoins` return are outputs that the wallet or the
caller knows, priced at the feerate of the transaction.
-/

namespace Tessera.Wallet

open Lib Policy Tx List

/-- An output that the wallet has, or that the caller gave. -/
def KnownOutput (wallet : SpendWallet) (cc : CCoinControl) (outpoint : COutPoint)
    (txout : CTxOut) : Prop :=
  (∃ txo ∈ wallet.txos, txo.outpoint = outpoint ∧ txo.txout = txout) ∨
    cc.getExternalOutput outpoint = some txout

/-- A coin of a known output, with what it costs to spend at a feerate. -/
structure PricedCoin (wallet : SpendWallet) (cc : CCoinControl) (feerate : CFeeRate)
    (coin : COutput) : Prop where
  known : KnownOutput wallet cc coin.outpoint coin.txout
  fee : coin.fee = COutput.inputFee feerate coin.inputBytes + coin.ancestorBumpFees
  effectiveValue : coin.effectiveValue = coin.txout.nValue - coin.fee
  bumpFees : 0 ≤ coin.ancestorBumpFees
  inputBytes : (∀ outpoint, cc.getInputWeight outpoint = none) → coin.inputBytes =
    maxP2WPKHInputWeight

section Coins

variable {P : Primitives} {wallet : SpendWallet} {cc : CCoinControl} {feerate : CFeeRate}

/-! ### Adding coins -/

variable {κ α : Type} {inputBytes bumpFee : Int} {fetched : CTxOut × Int} {txo : WalletTxo}

private theorem mem_upsert_flatMap [DecidableEq κ] {lt : κ → κ → Bool} {key : κ} {a b : α}
    {entries : List (κ × List α)} :
    b ∈ (upsert lt key [] (· ++ [a]) entries).flatMap Prod.snd ↔
    b ∈ entries.flatMap Prod.snd ∨ b = a := by
  induction entries with
  | nil => simp [upsert]
  | cons first rest ih =>
    rw [upsert]
    split
    · simp only [flatMap_cons, mem_append, mem_singleton]
      tauto
    split
    · simp only [flatMap_cons, mem_append, mem_singleton]
      tauto
    · simp only [flatMap_cons, mem_append, ih]
      tauto

variable {result : CoinsResult} {coin : COutput} {outpoint : COutPoint}

private theorem CoinsResult.mem_all_add {type : OutputType} {out : COutput} :
    coin ∈ (result.add type out).all ↔ coin ∈ result.all ∨ coin = out :=
  mem_upsert_flatMap

private theorem upsert_ne_nil {ν : Type} [DecidableEq κ] {lt : κ → κ → Bool} {key : κ}
    {new : ν} {f : ν → ν} (entries : List (κ × ν)) : upsert lt key new f entries ≠ [] := by
  cases entries with
  | nil => exact cons_ne_nil _ _
  | cons first rest =>
    rw [upsert]
    split
    · exact cons_ne_nil _ _
    · split <;> exact cons_ne_nil _ _

/-! ### Prices -/

private theorem pricedCoin_new {txout : CTxOut} (hknown : KnownOutput wallet cc outpoint txout)
    {depth time : Int} {solvable safe fromMe : Bool}
    (hbytes : (∀ outpoint, cc.getInputWeight outpoint = none) → inputBytes = maxP2WPKHInputWeight)
    (hok : (COutput.new outpoint txout depth inputBytes solvable safe time fromMe
      feerate).applyBumpFee bumpFee = .ok coin) : coin.outpoint = outpoint ∧ coin.txout = txout ∧
        PricedCoin wallet cc feerate coin := by
  rw [COutput.applyBumpFee] at hok
  split at hok
  next hbump =>
    cases hok
    exact ⟨rfl, rfl, hknown, rfl, rfl, hbump, hbytes⟩
  · cases hok

theorem orAbort_eq_ok {outcome : Except SelectionError α} {a : α} (h : orAbort outcome = .ok a) :
    outcome = .ok a := by
  cases outcome with
  | error e => cases h
  | ok b =>
    cases h
    rfl

private theorem signedInputSize_of_no_overrides (h : ∀ outpoint, cc.getInputWeight outpoint = none)
    (outpoint : COutPoint) :
    calculateMaximumSignedInputSize (some cc) outpoint = maxP2WPKHInputWeight := by
  rw [calculateMaximumSignedInputSize, signedInputWeight, Option.bind_some, h]
  rfl

/-! ### Inputs chosen by hand -/

private theorem fetchOutput_known (hok : fetchOutput wallet cc outpoint inputBytes = .ok fetched) :
    KnownOutput wallet cc outpoint fetched.1 ∧
      ((∀ outpoint, cc.getInputWeight outpoint = none) → inputBytes = -1 →
        fetched.2 = -1 ∨ fetched.2 = maxP2WPKHInputWeight) := by
  rw [fetchOutput] at hok
  split at hok
  next txo htxo =>
    dsimp only at hok
    split at hok
    · cases hok
    cases hok
    have houtpoint := find?_some htxo
    refine ⟨.inl ⟨txo, mem_of_find?_eq_some htxo, of_decide_eq_true houtpoint, rfl⟩,
      fun hnone hbytes => ?_⟩
    rw [if_pos hbytes]
    exact .inr (signedInputSize_of_no_overrides hnone _)
  · split at hok
    · cases hok
    next txout hexternal =>
      cases hok
      exact ⟨.inr hexternal, fun _ hbytes => .inl hbytes⟩

private theorem presetCoin_eq_ok (hok : presetCoin cc feerate outpoint fetched = .ok coin) :
    ∃ inputBytes, coin = COutput.new outpoint fetched.1 0 inputBytes true true 0 false feerate ∧
      inputBytes = if fetched.2 = -1 then calculateMaximumSignedInputSize (some cc) outpoint
        else fetched.2 := by
  rw [presetCoin] at hok
  generalize (if fetched.2 = -1 then calculateMaximumSignedInputSize (some cc) outpoint
    else fetched.2) = bytes at hok ⊢
  split at hok
  · cases hok
  · cases hok
    exact ⟨bytes, rfl, rfl⟩

variable {bumpFees : COutPoint → Int} {result' : CoinsResult}

private theorem fetchInput_eq_ok
    (hok : fetchInput wallet cc feerate bumpFees result outpoint = .ok result') :
    ∃ coin, result' = result.add .unknown coin ∧ coin.outpoint = outpoint ∧
    PricedCoin wallet cc feerate coin := by
  simp only [fetchInput, bind_eq_ok_iff] at hok
  obtain ⟨fetched, hfetch, base, hbase, coin, hcoin, hadd⟩ := hok
  obtain ⟨hknown, hsize⟩ := fetchOutput_known hfetch
  obtain ⟨inputBytes, rfl, hbytes⟩ := presetCoin_eq_ok hbase
  have hprice : (∀ outpoint, cc.getInputWeight outpoint = none) → inputBytes =
      maxP2WPKHInputWeight := by
    intro hnone
    have hpreset : presetInputBytes cc outpoint = -1 := by
      rw [presetInputBytes, hnone]
      rfl
    rw [hbytes]
    rcases hsize hnone hpreset with hunknown | hsize
    · rw [if_pos hunknown]
      exact signedInputSize_of_no_overrides hnone _
    · rw [hsize]
      rfl
  obtain ⟨hsame, -, hpriced⟩ := pricedCoin_new hknown hprice (orAbort_eq_ok hcoin)
  exact ⟨coin, (Except.ok.inj hadd).symm, hsame, hpriced⟩

/-- The coins chosen by hand: those of the outpoints, and no others. -/
structure PresetCoins (wallet : SpendWallet) (cc : CCoinControl) (feerate : CFeeRate)
    (outpoints : List COutPoint) (result : CoinsResult) : Prop where
  coin : ∀ coin ∈ result.all, coin.outpoint ∈ outpoints ∧ PricedCoin wallet cc feerate coin
  outpoint : ∀ outpoint ∈ outpoints, ∃ coin ∈ result.all, coin.outpoint = outpoint
  empty : result.coins = [] → result = .empty

private theorem presetCoins_empty : PresetCoins wallet cc feerate [] .empty :=
  ⟨fun _ h => absurd h not_mem_nil, fun _ h => absurd h not_mem_nil, fun _ => rfl⟩

theorem PresetCoins.add {outpoints : List COutPoint}
    (h : PresetCoins wallet cc feerate outpoints result)
    (hcoin : PricedCoin wallet cc feerate coin) :
    PresetCoins wallet cc feerate (outpoints ++ [coin.outpoint]) (result.add .unknown coin) where
  coin other hother := by
    rcases CoinsResult.mem_all_add.mp hother with hold | rfl
    · exact ⟨mem_append_left _ (h.coin other hold).1, (h.coin other hold).2⟩
    · exact ⟨mem_append_right _ (mem_singleton_self _), hcoin⟩
  outpoint o ho := by
    rcases mem_append.mp ho with hold | hnew
    · obtain ⟨other, hother, hsame⟩ := h.outpoint o hold
      exact ⟨other, CoinsResult.mem_all_add.mpr (.inl hother), hsame⟩
    · exact ⟨coin, CoinsResult.mem_all_add.mpr (.inr rfl), (mem_singleton.mp hnew).symm⟩
  empty hnil := absurd hnil (upsert_ne_nil _)

theorem PresetCoins.foldlM {before rest : List COutPoint}
    (h : PresetCoins wallet cc feerate before result)
    (hok : rest.foldlM (fetchInput wallet cc feerate bumpFees) result = .ok result') :
    PresetCoins wallet cc feerate (before ++ rest) result' := by
  induction rest generalizing before result with
  | nil =>
    cases hok
    rwa [append_nil]
  | cons outpoint rest ih =>
    obtain ⟨next, hnext, hrest⟩ := bind_eq_ok_iff.mp hok
    obtain ⟨coin, rfl, rfl, hpriced⟩ := fetchInput_eq_ok hnext
    have hall := ih (h.add hpriced) hrest
    rwa [append_assoc] at hall

theorem presetCoins_spec (hok : presetCoins wallet cc feerate = .ok result) :
    PresetCoins wallet cc feerate cc.listSelected result := by
  rw [presetCoins] at hok
  split at hok
  · exact presetCoins_empty.foldlM hok
  next hnone =>
    cases hok
    have hnil : cc.selected = [] := by
      rw [CCoinControl.hasSelected] at hnone
      simpa using hnone
    rw [CCoinControl.listSelected, hnil]
    exact presetCoins_empty

/-! ### The wallet's coins -/

/-- A coin of an output that the wallet has, whose type is known and that is not chosen by hand,
before its bump fee is applied. -/
structure FoundCoin (P : Primitives) (wallet : SpendWallet) (cc : CCoinControl) (feerate : CFeeRate)
    (coin : COutput) : Prop where
  txo : ∃ txo ∈ wallet.txos, txo.outpoint = coin.outpoint ∧ txo.txout = coin.txout ∧
    ∃ type, coinType P wallet coin.txout.scriptPubKey = .ok (some type)
  notSelected : coin.outpoint ∉ cc.listSelected
  new : ∃ depth solvable safe time fromMe, coin = COutput.new coin.outpoint coin.txout depth
    (calculateMaximumSignedInputSize (some cc) nullOutpoint) solvable safe time fromMe feerate

/-- What `AvailableCoins` has found is made of such coins. -/
structure Found.Good (P : Primitives) (wallet : SpendWallet) (cc : CCoinControl)
    (feerate : CFeeRate) (found : Found) : Prop where
  result : ∀ coin ∈ found.result.all, FoundCoin P wallet cc feerate coin
  truc : ∀ entry ∈ found.unconfirmedTruc, FoundCoin P wallet cc feerate entry.2

private theorem outputChecks_not_selected (h : outputChecks wallet cc txo) :
    txo.outpoint ∉ cc.listSelected := by
  simp only [outputChecks, CCoinControl.isSelected, Bool.and_eq_true, Bool.not_eq_true',
    decide_eq_false_iff_not] at h
  exact h.1.1.1.2

variable {found : Found} {found' : Found}

section

variable (h : found.Good P wallet cc feerate)

include h

theorem Found.Good.considerTxo
    (htxo : txo ∈ wallet.txos) (hok : considerTxo P wallet cc feerate found txo = .ok found') :
    found'.Good P wallet cc feerate := by
  rw [Wallet.considerTxo] at hok
  split at hok
  · cases hok
    exact h
  split at hok
  next safe hsafe hchecks =>
    obtain ⟨type, htype, hadd⟩ := bind_eq_ok_iff.mp hok
    cases type with
    | none =>
      cases hadd
      exact h
    | some type =>
      have hcoin : FoundCoin P wallet cc feerate (COutput.new txo.outpoint txo.txout txo.wtx.depth
          (calculateMaximumSignedInputSize (some cc) nullOutpoint) true safe txo.wtx.time
            txo.wtx.fromMe feerate) :=
        ⟨⟨txo, htxo, rfl, rfl, type, htype⟩, outputChecks_not_selected hchecks, _, _, _, _, _, rfl⟩
      dsimp only at hadd
      split at hadd
      · cases hadd
        exact ⟨h.result, forall_mem_append.mpr ⟨h.truc, forall_mem_singleton.mpr hcoin⟩⟩
      cases hadd
      refine ⟨fun coin hmem => ?_, h.truc⟩
      rcases CoinsResult.mem_all_add.mp hmem with hold | rfl
      · exact h.result coin hold
      · exact hcoin
  · cases hok
    exact h

theorem Found.Good.foldlM {txos : List WalletTxo} (htxos : ∀ txo ∈ txos, txo ∈ wallet.txos)
    (hok : txos.foldlM (Wallet.considerTxo P wallet cc feerate) found = .ok found') :
    found'.Good P wallet cc feerate := by
  induction txos generalizing found with
  | nil =>
    cases hok
    exact h
  | cons txo rest ih =>
    obtain ⟨next, hnext, hrest⟩ := bind_eq_ok_iff.mp hok
    exact ih (h.considerTxo (htxos txo mem_cons_self) hnext)
      (fun txo hmem => htxos txo (mem_cons_of_mem _ hmem)) hrest

theorem Found.Good.addTruc : ∀ coin ∈ found.addTruc.all, FoundCoin P wallet cc feerate coin := by
  refine forall_foldl (S := fun result : CoinsResult => ∀ coin ∈ result.all,
    FoundCoin P wallet cc feerate coin) (fun result entry hresult hentry coin hcoin => ?_)
    (fun entry hentry => h.truc entry (mem_filter.mp hentry).1) h.result
  rcases CoinsResult.mem_all_add.mp hcoin with hold | rfl
  · exact hresult coin hold
  · exact hentry

end

structure AvailableCoin (P : Primitives) (wallet : SpendWallet) (cc : CCoinControl)
    (feerate : CFeeRate) (coin : COutput) : Prop where
  priced : PricedCoin wallet cc feerate coin
  txo : ∃ txo ∈ wallet.txos, txo.outpoint = coin.outpoint ∧ txo.txout = coin.txout ∧
    ∃ type, coinType P wallet coin.txout.scriptPubKey = .ok (some type)
  notSelected : coin.outpoint ∉ cc.listSelected

theorem FoundCoin.applyBumpFee {bumped : COutput} (h : FoundCoin P wallet cc feerate coin)
    (hok : coin.applyBumpFee bumpFee = .ok bumped) : AvailableCoin P wallet cc feerate bumped := by
  obtain ⟨depth, solvable, safe, time, fromMe, hnew⟩ := h.new
  obtain ⟨txo, htxo, hsame, hout, -⟩ := h.txo
  rw [hnew] at hok
  obtain ⟨houtpoint, htxout, hpriced⟩ := pricedCoin_new (.inl ⟨txo, htxo, hsame, hout⟩)
    (fun hnone => signedInputSize_of_no_overrides hnone nullOutpoint) hok
  refine ⟨hpriced, ?_, houtpoint ▸ h.notSelected⟩
  rw [houtpoint, htxout]
  exact h.txo

theorem availableCoins_spec (hok : availableCoins P wallet cc feerate = .ok result) :
    ∀ coin ∈ result.all, AvailableCoin P wallet cc feerate coin := by
  obtain ⟨found, hfound, hbump⟩ := bind_eq_ok_iff.mp hok
  have hnone : Found.Good P wallet cc feerate ⟨.empty, [], []⟩ :=
    ⟨fun _ h => absurd h not_mem_nil, fun _ h => absurd h not_mem_nil⟩
  have hgood := (hnone.foldlM (fun _ h => h) hfound).addTruc
  obtain ⟨coins, hcoins, heq⟩ := bind_eq_ok_iff.mp hbump
  cases heq
  -- the bump fees are applied to the coins of each type
  have hentries : ∀ entry ∈ coins, ∀ coin ∈ entry.2, AvailableCoin P wallet cc feerate coin := by
    refine forall_mapM_ok (P := fun entry : OutputType × List COutput =>
      ∀ coin ∈ entry.2, FoundCoin P wallet cc feerate coin) (fun entry bumped hentry hok => ?_)
      (fun entry hentry coin hcoin => hgood coin (mem_flatMap.mpr ⟨entry, hentry, hcoin⟩)) hcoins
    obtain ⟨outputs, houtputs, heq⟩ := bind_eq_ok_iff.mp hok
    cases heq
    exact forall_mapM_ok (fun coin bumped hcoin hok => FoundCoin.applyBumpFee hcoin hok)
      hentry houtputs
  intro coin hcoin
  obtain ⟨entry, hentry, hmem⟩ := mem_flatMap.mp hcoin
  exact hentries entry hentry coin hmem

theorem otherCoins_spec (hok : otherCoins P wallet cc feerate = .ok result) :
    ∀ coin ∈ result.all, AvailableCoin P wallet cc feerate coin := by
  rw [otherCoins] at hok
  split at hok
  · exact availableCoins_spec hok
  · cases hok
    exact fun _ h => absurd h not_mem_nil

end Coins

end Tessera.Wallet
