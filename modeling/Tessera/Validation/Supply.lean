import Mathlib.Algebra.BigOperators.Intervals
import Mathlib.Tactic.Linarith
import Tessera.Lib.Total
import Tessera.Validation.Amounts
import Tessera.Validation.Reorg

/-!
# The supply of coins

Every block adds at most its subsidy to the total of the unspent coins: a transaction gives up the
coins it spends, its fee is what it does not pay out again, and the coinbase pays at most the fees
and the subsidy. Blocks may overwrite unspent coins here, which undo records do not bring back, so
that the coins may be fewer than those of the active chain. They are never more, and the bound is
proved for the coins of the chain (`chainCoins`). Nor is an outpoint spent more often than the chain
has created it, and every input of an accepted block spends a coin that its transaction finds, with
scripts that pass.
-/

namespace Tessera.Validation

open Coins Lib Lib.PartialMap Tx List

def coinValue (coin : Coin) : ℤ := coin.out.nValue

variable {P : Primitives} {params : Params} {fits : AmountRange} {nHeight : Nat} {tx : CTransaction}

/-! ### The total after a transaction -/

variable {M W : CoinMap} {view : CCoinsView} {block : CBlock}

private theorem ValuesGood.nonneg (h : ValuesGood M) : ∀ o coin, M o = some coin →
    0 ≤ coinValue coin :=
  fun o coin hcoin => (moneyRange_iff.mp (h o coin hcoin)).1

variable {N : CoinMap} {vout : List CTxOut} {ρ : Type} {s s' : Connecting} {vtx : List CTransaction}
  {view' : CCoinsView} {blockundo : CBlockUndo}

theorem ValuesGood.of_sub (h : ValuesGood M) (hsub : Sub N M) : ValuesGood N :=
  fun o coin hcoin => h o coin (hsub o coin hcoin)

variable (P nHeight tx) in
/-- The coins of outputs have at most the values of the outputs. -/
theorem total_createdFrom_le (i : Nat) (hlen : i + vout.length ≤ 2 ^ 32)
    (hvalues : ∀ txout ∈ vout, moneyRange txout.nValue) :
    (keys (createdFrom P nHeight tx i vout)).Finite ∧
      total coinValue (createdFrom P nHeight tx i vout) ≤ (vout.map CTxOut.nValue).sum := by
  induction vout generalizing i with
  | nil =>
    rw [createdFrom_nil]
    exact ⟨by simp, by simp⟩
  | cons txout rest ih =>
    simp only [length_cons] at hlen
    obtain ⟨hvalue, hothers⟩ := forall_mem_cons.mp hvalues
    obtain ⟨hfin, hle⟩ := ih (i + 1) (by omega) hothers
    have hnonneg : ∀ o coin, createdFrom P nHeight tx (i + 1) rest o = some coin →
        0 ≤ coinValue coin := fun o coin hcoin =>
      (moneyRange_iff.mp (hothers _ (createdFrom_eq_some hcoin).1)).1
    rw [createdFrom_cons P nHeight tx (by omega)]
    refine ⟨keys_update_finite hfin _ _, (total_update_le hfin hnonneg _ _).trans ?_⟩
    rw [map_cons, sum_cons]
    refine Int.add_le_add ?_ hle
    split
    · exact (moneyRange_iff.mp hvalue).1
    · exact Int.le_refl _

private theorem keys_applyTx_finite (hfin : (keys M).Finite) (htx : TxChecked tx) :
    (keys (applyTx P nHeight M tx)).Finite := by
  have hcreated := (total_createdFrom_le P nHeight tx 0
    ((zero_add _).trans_le htx.vout_length) htx.values).1
  refine (hcreated.union ?_).subset keys_overlay_subset
  exact hfin.subset (keys_subset_of_sub (sub_without M _))

variable (P nHeight) in
/-- A transaction takes the values it spends from the total, and adds at most its outputs. -/
theorem total_applyTx_le (hfin : (keys M).Finite) (hgood : ValuesGood M)
    (htx : TxChecked tx) (hnodup : (spentOutPoints tx).Nodup) : total coinValue
      (applyTx P nHeight M tx) +
        ((spentOutPoints tx).map (weightAt coinValue M)).sum ≤ total coinValue M + valueOut tx := by
  obtain ⟨hcreated, hout⟩ :=
    total_createdFrom_le P nHeight tx 0 ((Nat.zero_add _).trans_le htx.vout_length) htx.values
  have hrest := hfin.subset (keys_subset_of_sub (sub_without M (spentOutPoints tx)))
  have hover := total_overlay_le hcreated hrest
    (hgood.of_sub (sub_without M (spentOutPoints tx))).nonneg
  have hspent := total_without (w := coinValue) hnodup hfin
  have hsum : total coinValue (createdFrom P nHeight tx 0 tx.vout) ≤ (valueOut tx : ℤ) := hout
  calc total coinValue (applyTx P nHeight M tx) +
    ((spentOutPoints tx).map (weightAt coinValue M)).sum
      ≤ total coinValue (createdFrom P nHeight tx 0 tx.vout) + total coinValue
        (without M (spentOutPoints tx)) + ((spentOutPoints tx).map (weightAt coinValue M)).sum := by
        exact Int.add_le_add_right hover _
    _ = total coinValue (createdFrom P nHeight tx 0 tx.vout) + total coinValue M := by
        rw [Int.add_assoc, hspent]
    _ ≤ total coinValue M + valueOut tx := by
        rw [Int.add_comm]
        exact Int.add_le_add_left hsum _

/-! ### The fees of a block -/

private theorem valueOutFrom_spec {nValueOut sum : Int}
    (h : (valueOutFrom fits nValueOut vout : Except (Failure ρ) CAmount) = .ok sum) :
    sum = nValueOut + (vout.map CTxOut.nValue).sum := by
  induction vout generalizing nValueOut with
  | nil =>
    cases h
    exact (add_zero _).symm
  | cons txout rest ih =>
    simp only [valueOutFrom, bind_eq_ok_iff] at h
    obtain ⟨_, -, sum₁, hadd, _, -, hrest⟩ := h
    obtain ⟨-, rfl⟩ := addAmount_eq_ok_iff.mp hadd
    rw [ih hrest, map_cons, sum_cons, add_assoc]

private theorem getValueOut_spec {sum : CAmount}
    (h : (getValueOut fits tx : Except (Failure ρ) CAmount) = .ok sum) : sum = valueOut tx := by
  simp only [getValueOut, bind_eq_ok_iff] at h
  obtain ⟨sum₁, hloop, _, -, hret⟩ := h
  cases hret
  exact (valueOutFrom_spec hloop).trans (zero_add _)

private theorem checkInputValues_spec {nSpendHeight nValueIn sum : Int}
    {vin : List CTxIn} (h : checkInputValues fits view nSpendHeight nValueIn vin = .ok sum) :
    sum = nValueIn + ((vin.map CTxIn.prevout).map (weightAt coinValue view.coins)).sum := by
  induction vin generalizing nValueIn with
  | nil =>
    cases h
    exact (add_zero _).symm
  | cons txin rest ih =>
    simp only [checkInputValues, bind_eq_ok_iff] at h
    obtain ⟨_, hunspent, _, -, sum₁, hadd, _, -, hrest⟩ := h
    obtain ⟨-, rfl⟩ := addAmount_eq_ok_iff.mp hadd
    have hweight : (accessCoin view txin.prevout).out.nValue = weightAt coinValue view.coins
        txin.prevout := by
      cases hcoin : view.coins txin.prevout with
      | some coin =>
        rw [accessCoin, hcoin, weightAt_of_some hcoin]
        rfl
      | none =>
        rw [accessCoin, hcoin] at hunspent
        cases hunspent
    rw [ih hrest, hweight, map_cons, map_cons, sum_cons, add_assoc]

/-- What a transaction that is not a coinbase adds to the fees. -/
theorem connectInputs_spec {pindex : CBlockIndex} {nFees : CAmount}
    (hcoinbase : tx.isCoinBase = false) (h : connectInputs P params fits pindex tx s = .ok nFees) :
    nFees = s.nFees + (((spentOutPoints tx).map (weightAt coinValue s.view.coins)).sum -
      valueOut tx) := by
  have hspent : spentOutPoints tx = tx.vin.map CTxIn.prevout := if_neg (by simp [hcoinbase])
  rw [connectInputs, if_neg (by simp [hcoinbase])] at h
  simp only [bind_eq_ok_iff] at h
  obtain ⟨txfee, hinputs, sum, hadd, _, -, _, -, hret⟩ := h
  cases hret
  obtain ⟨-, rfl⟩ := addAmount_eq_ok_iff.mp hadd
  -- the fee is what comes in and does not go out
  obtain ⟨_, -, hbind⟩ := bind_eq_ok_iff.mp (asBlockFailure_eq_ok_iff.mp hinputs)
  simp only [bind_eq_ok_iff] at hbind
  obtain ⟨nValueIn, hin, nValueOut, hout, _, -, _, -, hret⟩ := hbind
  cases hret
  rw [checkInputValues_spec hin, getValueOut_spec hout, hspent, zero_add]

variable {mode : ScriptMode} {pindex : CBlockIndex}

/-- Coins that a bound on the supply is proved for: there are finitely many of them, and their
values are amounts. -/
structure Counted (M : CoinMap) : Prop where
  finite : (keys M).Finite
  values : ValuesGood M

theorem Counted.applyTx (h : Counted M) (htx : TxChecked tx) : Counted (applyTx P nHeight M tx) :=
  ⟨keys_applyTx_finite h.finite htx, h.values.applyTx htx⟩

/-- A round of the loop moves value from the coins to the fees. The coins may be more than the view
shows. -/
theorem connectTransaction_total (hW : Counted W)
    (hsub : Sub s.view.coins W) (htx : TxChecked tx) (hcoinbase : tx.isCoinBase = false)
    (h : connectTransaction P params fits mode pindex false s tx = .ok s') :
    total coinValue (applyTx P pindex.nHeight.toNat W tx) + s'.nFees ≤
      total coinValue W + s.nFees := by
  obtain ⟨txundo, hspends, -, -, hinputs⟩ := connectTransaction_spec htx h
  have hfees := connectInputs_spec hcoinbase hinputs
  have htotal := total_applyTx_le P pindex.nHeight.toNat hW.finite hW.values htx hspends.nodup
  -- what is spent has the same value in both maps
  have hsame : (spentOutPoints tx).map (weightAt coinValue s.view.coins) =
      (spentOutPoints tx).map (weightAt coinValue W) := by
    refine map_congr_left fun o ho => ?_
    obtain ⟨coin, hcoin⟩ := hspends.has ho
    rw [weightAt_of_some hcoin, weightAt_of_some (hsub o coin hcoin)]
  rw [hsame] at hfees
  linarith only [hfees, htotal]

variable (P) in
/-- What transactions do to the coins, one after the other. -/
def applyTxs (nHeight : Nat) (M : CoinMap) (vtx : List CTransaction) : CoinMap :=
  vtx.foldl (applyTx P nHeight) M

theorem Counted.applyTxs (h : Counted M)
    (hvtx : ∀ tx ∈ vtx, TxChecked tx) : Counted (applyTxs P nHeight M vtx) := by
  induction vtx generalizing M with
  | nil => exact h
  | cons tx rest ih =>
    obtain ⟨htx, hothers⟩ := forall_mem_cons.mp hvtx
    exact ih (h.applyTx htx) hothers

theorem Applies.eq_applyTxs {M' : CoinMap} {txs : List (CTransaction × Option CTxUndo)}
    (h : Applies P nHeight M txs M') : M' = applyTxs P nHeight M (txs.map Prod.fst) := by
  induction txs generalizing M with
  | nil => exact h
  | cons p txs ih => exact ih h.2

private theorem connectRest_total (hW : Counted W) (hsub : Sub s.view.coins W)
    (hvtx : ∀ tx ∈ vtx, TxChecked tx) (hcoinbase : ∀ tx ∈ vtx, tx.isCoinBase = false)
    (h : connectRest P params fits mode pindex vtx s = .ok s') :
    total coinValue (applyTxs P pindex.nHeight.toNat W vtx) + s'.nFees ≤
      total coinValue W + s.nFees := by
  induction vtx generalizing W s with
  | nil =>
    cases h
    exact le_refl _
  | cons tx rest ih =>
    obtain ⟨htx, hothers⟩ := forall_mem_cons.mp hvtx
    obtain ⟨hfirst, hrest⟩ := forall_mem_cons.mp hcoinbase
    obtain ⟨s₁, hstep, hloop⟩ := bind_eq_ok_iff.mp h
    obtain ⟨_, -, hview, -⟩ := connectTransaction_spec htx hstep
    have hround := connectTransaction_total hW hsub htx hfirst hstep
    have hsub₁ : Sub s₁.view.coins (applyTx P pindex.nHeight.toNat W tx) := by
      rw [hview]
      exact applyTx_mono hsub
    exact (ih (hW.applyTx htx) hsub₁ hothers hrest hloop).trans hround

variable {pprev : CBlockIndex}

private theorem connectChecked_total (hW : Counted W) (hsub : Sub view.coins W)
    (hchecked : BlockChecked block)
    (h : connectChecked P params fits mode block pprev view = .ok (view', blockundo)) :
    total coinValue (applyTxs P pprev.length W block.vtx) ≤
      total coinValue W + getBlockSubsidy params pprev.length := by
  simp only [connectChecked, bind_eq_ok_iff] at h
  obtain ⟨_, -, _, -, s, hloop, blockReward, hreward, coinbaseValue, hvalue, _, hlimit, -⟩ := h
  obtain ⟨cb, rest, hvtx, hcoinbase, hothers⟩ := hchecked.coinbase
  have hall := hchecked.checked
  rw [hvtx] at hall hloop hvalue ⊢
  obtain ⟨htx, hrest⟩ := forall_mem_cons.mp hall
  obtain ⟨s₁, hfirst, hloop⟩ := bind_eq_ok_iff.mp hloop
  obtain ⟨-, rfl⟩ := addAmount_eq_ok_iff.mp hreward
  obtain rfl := getValueOut_spec hvalue
  -- the coinbase spends nothing, and takes no part in the fees
  obtain ⟨_, hspends, hview, -, hinputs⟩ := connectTransaction_spec htx hfirst
  rw [connectInputs, if_pos hcoinbase] at hinputs
  have hnone : spentOutPoints cb = [] := if_pos hcoinbase
  have hcb := total_applyTx_le P pprev.length hW.finite hW.values htx hspends.nodup
  rw [hnone, map_nil, sum_nil] at hcb
  have hsub₁ : Sub s₁.view.coins (applyTx P (CBlockIndex.nHeight (block :: pprev)).toNat W cb) := by
    rw [hview]
    exact applyTx_mono hsub
  have hafter := connectRest_total (hW.applyTx htx) hsub₁ hrest hothers hloop
  have hzero := (Except.ok.inj hinputs).symm
  rw [rejectIf_eq_ok_iff, nHeight_cons] at hlimit
  have hpays : (valueOut cb : ℤ) ≤ s.nFees + getBlockSubsidy params pprev.length :=
    not_lt.mp (of_decide_eq_false hlimit)
  rw [nHeight_cons] at hafter
  have hfold : applyTxs P pprev.length W (cb :: rest) =
      applyTxs P pprev.length (applyTx P pprev.length W cb) rest := rfl
  rw [hfold]
  linarith only [hafter, hcb, hpays, hzero]

/-! ### The coins of a chain -/

variable (P params) in
/-- The coins that the blocks of a chain leave, one after the other. -/
def chainCoins : CBlockIndex → CoinMap
  | [] => fun _ => none
  | block :: pprev =>
    if block.getHash P = params.hashGenesisBlock then chainCoins pprev
    else applyTxs P pprev.length (chainCoins pprev) block.vtx

variable (P params) in
/-- Every block of a chain was accepted, over coins that are among those of the blocks before it. -/
inductive Accepted : CBlockIndex → Prop
  | nil : Accepted []
  | cons {mode : ScriptMode} {block : CBlock} {pprev : CBlockIndex} {view view' : CCoinsView}
      {blockundo : Option CBlockUndo} (chain : Accepted pprev)
      (sub : Sub view.coins (chainCoins P params pprev))
      (block_ok : connectBlock P params int64Range mode block pprev view = .ok (view', blockundo)) :
      Accepted (block :: pprev)

private theorem chainCoins_of_ne (h : block.getHash P ≠ params.hashGenesisBlock) :
      chainCoins P params
      (block :: pprev) = applyTxs P pprev.length (chainCoins P params pprev) block.vtx := if_neg h

variable {chain : CBlockIndex}

theorem Accepted.counted (h : Accepted P params chain) : Counted (chainCoins P params chain) := by
  induction h with
  | nil => exact ⟨by simp [chainCoins], fun o coin hcoin => by cases hcoin⟩
  | @cons _ block pprev view view' _ hchain hsub hblock ih =>
    obtain ⟨hgenesis, -⟩ | ⟨hgenesis, undo, -, hconnected⟩ := connectBlock_spec hblock
    · rwa [chainCoins, if_pos hgenesis]
    · rw [chainCoins_of_ne hgenesis]
      exact ih.applyTxs hconnected.checked.checked

theorem CoinsGood.of_sub (h : CoinsGood M) (hsub : Sub N M) : CoinsGood N :=
  fun o coin hcoin => h o coin (hsub o coin hcoin)

/-- What a connected block leaves of fewer coins is among what it leaves of more. -/
theorem Connected.sub_applyTxs (h : Connected P block pprev view view' blockundo)
    (hsub : Sub view.coins W) :
    Applies P pprev.length W (block.vtx.zip (none :: blockundo.vtxundo.map some))
        (applyTxs P pprev.length W block.vtx) ∧
      Sub view'.coins (applyTxs P pprev.length W block.vtx) := by
  obtain ⟨W', happlies, hsub'⟩ := h.applies.mono hsub
  have heq := happlies.eq_applyTxs
  rw [h.paired.2] at heq
  rw [heq] at happlies hsub'
  exact ⟨happlies, hsub'⟩

theorem Accepted.good (h : Accepted P params chain)
    (hlength : chain.length ≤ 2 ^ 31) : CoinsGood (chainCoins P params chain) := by
  induction h with
  | nil =>
    intro o coin hcoin
    cases hcoin
  | @cons _ block pprev view view' _ hchain hsub hblock ih =>
    rw [length_cons] at hlength
    obtain ⟨hgenesis, -⟩ | ⟨hgenesis, undo, -, hconnected⟩ := connectBlock_spec hblock
    · rw [chainCoins, if_pos hgenesis]
      exact ih (by omega)
    · rw [chainCoins_of_ne hgenesis]
      exact ((hconnected.sub_applyTxs hsub).1.good (ih (by omega)) hconnected.height_pos (by omega)
        hconnected.paired.1).1

/-- The coins of a chain that is connected in order. -/
theorem Connects.accepted (h : Connects P params chain view) :
    Accepted P params chain ∧ view.coins = chainCoins P params chain := by
  induction h with
  | nil => exact ⟨.nil, rfl⟩
  | @cons _ block pprev view view' _ hchain hblock ih =>
    obtain ⟨haccepted, hcoins⟩ := ih
    refine ⟨.cons haccepted (hcoins ▸ Sub.refl _) hblock, ?_⟩
    obtain ⟨hgenesis, -, rfl⟩ | ⟨hgenesis, undo, -, hconnected⟩ := connectBlock_spec hblock
    · rw [chainCoins, if_pos hgenesis]
      exact hcoins
    · have happlies := hconnected.applies.eq_applyTxs
      rw [hconnected.paired.2, hcoins] at happlies
      rw [chainCoins_of_ne hgenesis, happlies]

/-- The total of the coins of a chain is at most the sum of the subsidies. -/
theorem Accepted.total_le (h : Accepted P params chain) : total coinValue
      (chainCoins P params chain) ≤
      ∑ height ∈ Finset.Icc 1 (CBlockIndex.nHeight chain).toNat, getBlockSubsidy params height := by
  induction h with
  | nil => simp [chainCoins, CBlockIndex.nHeight]
  | @cons mode block pprev view view' _ hchain hsub hblock ih =>
    rw [nHeight_cons]
    have hprev : (CBlockIndex.nHeight pprev).toNat = pprev.length - 1 := by
      simp only [CBlockIndex.nHeight]
      omega
    rw [hprev] at ih
    simp only [connectBlock, bind_eq_ok_iff] at hblock
    obtain ⟨_, hcheck, _, -, hbind⟩ := hblock
    split at hbind
    · -- a block with the hash of the genesis block changes nothing
      rename_i hgenesis
      rw [chainCoins, if_pos hgenesis]
      refine ih.trans (Finset.sum_le_sum_of_subset_of_nonneg ?_ fun height _ _ => ?_)
      · exact Finset.Icc_subset_Icc_right (Nat.sub_le _ _)
      · exact (getBlockSubsidy_range params height).1
    next hgenesis =>
      obtain ⟨⟨view₁, undo⟩, hconnect, -⟩ := bind_eq_ok_iff.mp hbind
      rw [chainCoins_of_ne hgenesis]
      have hblock := connectChecked_total hchain.counted hsub (checkBlock_spec hcheck) hconnect
      obtain ⟨_, hne, -⟩ := bind_eq_ok_iff.mp hconnect
      simp only [assertThat_eq_ok_iff, Bool.not_eq_true', isEmpty_eq_false_iff] at hne
      obtain ⟨k, hk⟩ : ∃ k, pprev.length = k + 1 :=
        ⟨pprev.length - 1, by have := length_pos_iff.mpr hne; omega⟩
      rw [hk] at hblock ih ⊢
      rw [Finset.sum_Icc_succ_top (by omega)]
      exact hblock.trans (Int.add_le_add_right ih _)

/-! ### The sum of the subsidies -/

def subsidyAfter (halvings : Nat) : ℤ := if 64 ≤ halvings then 0 else 50 * coin / 2 ^ halvings

private theorem subsidyAfter_nonneg (halvings : Nat) : 0 ≤ subsidyAfter halvings := by
  unfold subsidyAfter
  split
  · exact le_refl 0
  · exact Int.ediv_nonneg (by decide) (Int.pow_nonneg (by decide))

/-- A function of the number of a period, summed over whole periods. -/
theorem sum_range_mul_div {n : Nat} (hn : 0 < n) (f : Nat → ℤ) (periods : Nat) :
    ∑ i ∈ Finset.range (n * periods), f (i / n) = n * ∑ k ∈ Finset.range periods, f k := by
  induction periods with
  | zero => simp
  | succ k ih =>
    have hlast : ∑ x ∈ Finset.range n, f ((n * k + x) / n) = n * f k := by
      rw [Finset.sum_congr rfl fun x hx => by
        rw [Nat.mul_add_div hn, Nat.div_eq_of_lt (mem_range.mp hx)]]
      simp
    rw [Nat.mul_succ, Finset.sum_range_add, ih, hlast, Finset.sum_range_succ, mul_add]

private theorem sum_subsidyAfter_le (periods : Nat) : ∑ k ∈ Finset.range periods, subsidyAfter k ≤
    9999999989 := by
  have hfirst : ∑ k ∈ Finset.range 64, subsidyAfter k ≤ 9999999989 := by decide +kernel
  refine le_trans ?_ hfirst
  obtain hle | hle := le_total periods 64
  · exact Finset.sum_le_sum_of_subset_of_nonneg (Finset.range_mono hle)
      fun k _ _ => subsidyAfter_nonneg k
  · rw [Finset.sum_subset (Finset.range_mono hle)]
    intro k _ hk
    exact if_pos (by simpa using hk)

/-- All subsidies together are an amount, with halvings at most every 210000 blocks. -/
theorem sum_getBlockSubsidy_le (hpos : 0 < params.nSubsidyHalvingInterval)
    (hle : params.nSubsidyHalvingInterval ≤ 210000) (height : Nat) :
    ∑ h ∈ Finset.Icc 1 height, getBlockSubsidy params h ≤ 2100000000000000 := by
  have hperiods : ∑ h ∈ Finset.Icc 1 height, getBlockSubsidy params h ≤
      ∑ h ∈ Finset.range (params.nSubsidyHalvingInterval * (height + 1)),
        subsidyAfter (h / params.nSubsidyHalvingInterval) := by
    refine Finset.sum_le_sum_of_subset_of_nonneg (fun h hh => ?_) fun h _ _ => subsidyAfter_nonneg _
    rw [Finset.mem_range]
    have hupper := (Finset.mem_Icc.mp hh).2
    have := Nat.le_mul_of_pos_left (height + 1) hpos
    omega
  rw [sum_range_mul_div hpos] at hperiods
  have hsum := sum_subsidyAfter_le (height + 1)
  have hnonneg : 0 ≤ ∑ k ∈ Finset.range (height + 1), subsidyAfter k :=
    Finset.sum_nonneg fun k _ => subsidyAfter_nonneg k
  have hle' : (params.nSubsidyHalvingInterval : ℤ) ≤ 210000 := by exact_mod_cast hle
  calc ∑ h ∈ Finset.Icc 1 height, getBlockSubsidy params h
      ≤ params.nSubsidyHalvingInterval * ∑ k ∈ Finset.range (height + 1), subsidyAfter k := hperiods
    _ ≤ 210000 * ∑ k ∈ Finset.range (height + 1), subsidyAfter k :=
        mul_le_mul_of_nonneg_right hle' hnonneg
    _ ≤ 210000 * 9999999989 := mul_le_mul_of_nonneg_left hsum (by decide)
    _ ≤ 2100000000000000 := by decide

/-! ### Moves of the tip -/

namespace Chainstate

variable (tree : BlockTree P params)

/-- Blocks of the tree are connected. -/
def InTree (s : Chainstate) : TipMove → Prop
  | .connect _ block => tree.entries (block :: s.tip)
  | .disconnect => True

/-- A record that an entry of the block index was connected with, over coins that are among those of
the chain before it. -/
def RecordedSub (block : CBlock) (pprev : CBlockIndex) (file : Bytes) : Prop :=
  tree.entries (block :: pprev) ∧ block.getHash P ≠ params.hashGenesisBlock ∧
    Accepted P params pprev ∧ ∃ view view' blockundo,
      Sub view.coins (chainCoins P params pprev) ∧ Connected P block pprev view view' blockundo ∧
      file = writeBlockUndo P (pprev.getBlockHash P) blockundo

/-- What holds of a chain state however its tip has moved, if coins may be overwritten. -/
structure Bounded (tree : BlockTree P params) (s : Chainstate) : Prop where
  accepted : Accepted P params s.tip
  sub : Sub s.view.coins (chainCoins P params s.tip)
  records : ∀ block pprev file, s.rev (block :: pprev) = some file →
    RecordedSub tree block pprev file

variable {tree : BlockTree P params} {s : Chainstate}

private theorem bounded_init : Bounded tree init where
  accepted := .nil
  sub := Sub.refl _
  records block pprev file h := by cases h

private theorem Bounded.connectTip (h : Bounded tree s)
    (hmove : InTree tree s (.connect mode block)) :
    Bounded tree (s.connectTip P params mode block) := by
  unfold Chainstate.connectTip
  cases hconnect : connectBlock P params int64Range mode block s.tip s.view with
  | error e => exact h
  | ok r =>
    obtain ⟨view, blockundo⟩ := r
    have haccepted : Accepted P params (block :: s.tip) := .cons h.accepted h.sub hconnect
    obtain ⟨hgenesis, rfl, rfl⟩ | ⟨hgenesis, undo, rfl, hconnected⟩ := connectBlock_spec hconnect
    · refine ⟨haccepted, ?_, h.records⟩
      rw [chainCoins, if_pos hgenesis]
      exact h.sub
    · refine ⟨haccepted, ?_, fun b rest file hfile => ?_⟩
      · rw [chainCoins_of_ne hgenesis]
        exact (hconnected.sub_applyTxs h.sub).2
      obtain hold | ⟨heq, rfl⟩ := (recordUndo_spec _ _ _ _).2.2 _ _ hfile
      · exact h.records b rest file hold
      · cases heq
        exact ⟨hmove, hgenesis, h.accepted, s.view, view, undo, h.sub, hconnected, rfl⟩

private theorem Bounded.disconnectTip (h : Bounded tree s) : Bounded tree (s.disconnectTip P) := by
  unfold Chainstate.disconnectTip
  split
  · exact h
  next block pprev htip =>
    split
    · exact h
    split
    next view hrun =>
      -- a disconnection that succeeds has read a record
      cases hfile : s.rev (block :: pprev) with
      | none =>
        rw [hfile] at hrun
        cases hrun
      | some file =>
        obtain ⟨hentry, hgenesis, haccepted, old, old', undo, hold, hconnected, rfl⟩ :=
          h.records _ _ _ hfile
        have hlt := tree.length_lt hentry
        have hsub := h.sub
        rw [htip, chainCoins_of_ne hgenesis] at hsub
        obtain ⟨clean, hrun', -⟩ := hconnected.disconnect_run
          ((haccepted.good (by omega)).of_sub hold) hlt s.view
        rw [hfile, hrun'] at hrun
        obtain rfl := (Prod.mk.inj (Except.ok.inj hrun)).2
        exact ⟨haccepted, (hconnected.sub_applyTxs hold).1.undo_sub hsub, h.records⟩
    · exact h

theorem Bounded.step (h : Bounded tree s) {move : TipMove} (hmove : InTree tree s move) :
    Bounded tree (s.step P params move) := by
  cases move with
  | connect mode block => exact h.connectTip hmove
  | disconnect => exact h.disconnectTip

/-- However the tip has moved, the unspent coins are worth at most the subsidies up to the tip,
which is an amount. In a block that is connected no sum of amounts overflows, and if one is not an
amount then the block is rejected. -/
theorem no_inflation (tree : BlockTree P params) (hpos : 0 < params.nSubsidyHalvingInterval)
    (hle : params.nSubsidyHalvingInterval ≤ 210000) (moves : List TipMove)
    (hmoves : Meets (step P params) (InTree tree) init moves) :
    let s := run (step P params) init moves
    (keys s.view.coins).Finite ∧ total coinValue s.view.coins ≤
        ∑ h ∈ Finset.Icc 1 (CBlockIndex.nHeight s.tip).toNat, getBlockSubsidy params h ∧
      moneyRange (total coinValue s.view.coins) = true ∧
      ∀ mode block, connectBlock P params int64Range mode block s.tip s.view ≠ .error .overflow ∧
        Weaker (connectBlock P params moneyRange mode block s.tip s.view)
          (connectBlock P params int64Range mode block s.tip s.view) := by
  intro s
  have hs : Bounded tree s := run_invariant (fun _ _ h hmove => h.step hmove) bounded_init hmoves
  have hcounted := hs.accepted.counted
  have hvalues := hcounted.values.of_sub hs.sub
  have htotal := (total_le_of_sub hcounted.finite hcounted.values.nonneg hs.sub).trans
    hs.accepted.total_le
  refine ⟨hcounted.finite.subset (keys_subset_of_sub hs.sub), htotal, ?_, fun mode block => ?_⟩
  · rw [moneyRange_iff]
    exact ⟨total_nonneg hvalues.nonneg, htotal.trans (sum_getBlockSubsidy_le hpos hle _)⟩
  · obtain ⟨hoverflow, hweaker⟩ := connectBlock_agrees block s.tip hvalues
    exact ⟨hoverflow, hweaker⟩

end Chainstate

open TwoBlocks in
/-- The coins after the two blocks. -/
theorem Chainstate.no_inflation_two_blocks :
    let s := run (step .repeating network) init (moves.take 2)
    s.tip = [TwoBlocks.block, genesis] ∧ (keys s.view.coins).Finite ∧ total coinValue s.view.coins ≤
        ∑ h ∈ Finset.Icc 1 (CBlockIndex.nHeight s.tip).toNat, getBlockSubsidy network h ∧
      moneyRange (total coinValue s.view.coins) = true ∧
      ∀ mode block, connectBlock .repeating network int64Range mode block s.tip s.view ≠
      .error .overflow ∧ Weaker (connectBlock .repeating network moneyRange mode block s.tip s.view)
          (connectBlock .repeating network int64Range mode block s.tip s.view) := by
  exact ⟨by decide +kernel, no_inflation tree (by decide) (by decide) (moves.take 2)
    ⟨mem_cons_self, (admissible_connect (.inl rfl)).1, trivial⟩⟩

/-! ### Spending once -/

variable (P params) in
/-- The sum of a count over the transactions of a chain. The genesis block adds no coins. -/
def chainSum (count : Nat → CTransaction → Nat) : CBlockIndex → Nat
  | [] => 0
  | block :: pprev => chainSum count pprev +
      if block.getHash P = params.hashGenesisBlock then 0
      else (block.vtx.map (count pprev.length)).sum

variable (P params) in
/-- How often a chain spends an outpoint. -/
def spendings (o : COutPoint) : CBlockIndex → Nat :=
  chainSum P params fun _ tx => (spentOutPoints tx).count o

/-- The coins at an outpoint, of which there is at most one. -/
def coinsAt (o : COutPoint) (M : CoinMap) : Nat := (M o).toList.length

variable (P params) in
/-- How often a chain creates a coin at an outpoint. -/
def creations (o : COutPoint) : CBlockIndex → Nat :=
  chainSum P params fun nHeight tx => coinsAt o (created P nHeight tx)

variable (P nHeight) in
/-- A transaction removes the coins that it spends, and adds those that it creates. -/
theorem Spends.balance {coins : List Coin} (h : Spends M tx coins) (o : COutPoint) :
    (spentOutPoints tx).count o + coinsAt o (applyTx P nHeight M tx) ≤ coinsAt o M +
      coinsAt o (created P nHeight tx) := by
  have hover : coinsAt o (applyTx P nHeight M tx) ≤
      coinsAt o (created P nHeight tx) + coinsAt o (without M (spentOutPoints tx)) := by
    unfold coinsAt applyTx overlay
    cases created P nHeight tx o <;> simp
  have hspend : (spentOutPoints tx).count o + coinsAt o (without M (spentOutPoints tx)) ≤
      coinsAt o M := by
    unfold coinsAt
    by_cases ho : o ∈ spentOutPoints tx
    · -- it is listed once, and its coin is there
      obtain ⟨coin, hcoin⟩ := h.has ho
      rw [count_eq_one_of_mem h.nodup ho, without_of_mem ho, hcoin]
      exact le_refl 1
    · rw [count_eq_zero_of_not_mem ho, without_of_not_mem ho, Nat.zero_add]
  omega

theorem Applies.balance {M' : CoinMap} {txs : List (CTransaction × Option CTxUndo)}
    (h : Applies P nHeight M txs M') (o : COutPoint) :
    ((txs.map Prod.fst).map fun tx => (spentOutPoints tx).count o).sum + coinsAt o M' ≤
      coinsAt o M + ((txs.map Prod.fst).map fun tx => coinsAt o (created P nHeight tx)).sum := by
  induction txs generalizing M with
  | nil =>
    obtain rfl := h
    simp
  | cons p txs ih =>
    have hfirst := h.1.balance P nHeight o
    have hothers := ih h.2
    simp only [map_cons, sum_cons]
    omega

theorem Accepted.balance (h : Accepted P params chain) (o : COutPoint) :
    spendings P params o chain + coinsAt o (chainCoins P params chain) ≤
      creations P params o chain := by
  induction h with
  | nil => exact le_refl 0
  | @cons _ block pprev view view' _ hchain hsub hblock ih =>
    unfold spendings creations at ih ⊢
    rw [chainSum, chainSum]
    obtain ⟨hgenesis, -⟩ | ⟨hgenesis, undo, -, hconnected⟩ := connectBlock_spec hblock
    · rwa [chainCoins, if_pos hgenesis, if_pos hgenesis, if_pos hgenesis]
    · have hbalance := (hconnected.sub_applyTxs hsub).1.balance o
      rw [hconnected.paired.2] at hbalance
      rw [chainCoins_of_ne hgenesis, if_neg hgenesis, if_neg hgenesis]
      omega

/-- However the tip has moved, an outpoint has been spent on the active chain, and is unspent now,
at most as often as the chain has created it. -/
theorem Chainstate.no_double_spend (tree : BlockTree P params) (moves : List TipMove)
    (hmoves : Meets (step P params) (InTree tree) init moves) (o : COutPoint) :
    let s := run (step P params) init moves
    spendings P params o s.tip + coinsAt o s.view.coins ≤ creations P params o s.tip := by
  intro s
  have hs : Bounded tree s := run_invariant (fun _ _ h hmove => h.step hmove) bounded_init hmoves
  -- the view may have lost coins that were overwritten
  have hview : coinsAt o s.view.coins ≤ coinsAt o (chainCoins P params s.tip) := by
    unfold coinsAt
    cases hcoin : s.view.coins o with
    | none => exact Nat.zero_le _
    | some coin => rw [hs.sub o coin hcoin]
  exact (Nat.add_le_add_left hview _).trans (hs.accepted.balance o)

/-- Blocks of the tree in a row are all connected, if the tip is as high as it can be after them. -/
theorem Chainstate.connects_tip {tree : BlockTree P params} {mode : ScriptMode}
    (blocks : List CBlock) (s : Chainstate) :
    let s' := run (step P params) s (blocks.map (.connect mode))
    s'.tip.length ≤ s.tip.length + blocks.length ∧
      (s'.tip.length = s.tip.length + blocks.length → s'.tip = blocks.reverse ++ s.tip ∧
        ((∀ i, i ≠ [] → i <:+ s'.tip → tree.entries i) →
          Meets (step P params) (InTree tree) s (blocks.map (.connect mode)))) := by
  induction blocks generalizing s with
  | nil => exact ⟨le_refl _, fun _ => ⟨rfl, fun _ => trivial⟩⟩
  | cons block blocks ih =>
    obtain ⟨hle, heq⟩ := ih (s.connectTip P params mode block)
    have htip : (s.connectTip P params mode block).tip = block :: s.tip ∨
        (s.connectTip P params mode block).tip = s.tip := by
      unfold connectTip
      split
      · exact .inl rfl
      · exact .inr rfl
    rw [length_cons, ← Nat.add_assoc, Nat.add_right_comm]
    obtain htip | htip := htip
    · rw [htip] at hle heq
      refine ⟨hle, fun hlen => ?_⟩
      obtain ⟨heq, hmeets⟩ := heq hlen
      refine ⟨by rwa [reverse_cons, append_assoc], fun hentries => ⟨?_, hmeets hentries⟩⟩
      exact hentries _ (cons_ne_nil _ _) (heq ▸ suffix_append _ _)
    · rw [htip] at hle
      -- a block that is not connected is missing in the end
      exact ⟨hle.trans (by omega), fun hlen => absurd (hlen.symm.trans_le hle) (by omega)⟩

namespace LongChain

open Chainstate
open TwoBlocks (genesis network)

def mint (height : Nat) : CTransaction :=
  ⟨[⟨⟨.null 32, COutPoint.nullIndex⟩, [1, UInt8.ofNat height], 0, []⟩], [⟨50 * coin, [0x51]⟩],
    UInt32.ofNat (256 * height), 0⟩

def spend : CTransaction := ⟨[⟨outPoint .repeating (mint 1) 0, [], 0, []⟩], [⟨1000, [0x51]⟩], 1, 0⟩

/-- The chain of a height. The first coinbase is spent when it is mature. -/
def chainAt : Nat → CBlockIndex
  | 0 => [genesis]
  | n + 1 =>
    let vtx := mint (n + 1) :: if n = 100 then [spend] else []
    let root := (computeMerkleRoot .repeating (vtx.map (CTransaction.getHash .repeating))).1
    ⟨⟨256 * (n + 2), (chainAt n).getBlockHash .repeating, root, 0, 0x207fffff, 0⟩, vtx⟩ :: chainAt n

def tree : BlockTree .repeating network where
  entries i := i ≠ [] ∧ i <:+ chainAt 101
  parent b pprev h := by
    by_cases hpprev : pprev = []
    · exact .inl hpprev
    · exact .inr ⟨hpprev, (suffix_cons b pprev).trans h.2⟩
  root b h := by
    obtain ⟨before, h⟩ := h.2
    have hlast := congrArg getLast? h
    rw [getLast?_concat, show (chainAt 101).getLast? = some genesis by decide +kernel] at hlast
    cases hlast
    rfl
  hash_inj i j hi hj h := by
    have hnodup : ((chainAt 101).tails.map (CBlockIndex.getBlockHash .repeating)).Nodup := by
      decide +kernel
    exact inj_on_of_nodup_map hnodup ((mem_tails _ _).mpr hi.2) ((mem_tails _ _).mpr hj.2) h
  height i h := by
    have hle := h.2.length_le
    rw [show (chainAt 101).length = 102 by decide +kernel] at hle
    unfold CBlockIndex.nHeight
    omega

def moves : List TipMove := (chainAt 101).reverse.map (.connect ⟨true, false⟩)

/-- Every block is connected. -/
theorem moves_meet : (run (step .repeating network) init moves).tip = chainAt 101 ∧
    Meets (step .repeating network) (InTree tree) init moves := by
  have hlen : (run (step .repeating network) init moves).tip.length =
      init.tip.length + (chainAt 101).reverse.length := by decide +kernel
  obtain ⟨htip, hmeets⟩ := (connects_tip (chainAt 101).reverse init).2 hlen
  rw [reverse_reverse, show init.tip = [] from rfl, append_nil] at htip
  exact ⟨htip, hmeets fun i hi hsuffix => ⟨hi, htip ▸ hsuffix⟩⟩

end LongChain

open TwoBlocks (network) in
open LongChain in
/-- The output of the first coinbase has been spent on the chain and is not unspent. -/
theorem Chainstate.no_double_spend_spent :
    let s := run (step .repeating network) init moves
    let o := outPoint .repeating (mint 1) 0
    spendings .repeating network o s.tip = 1 ∧ coinsAt o s.view.coins = 0 := by
  have hbalance := no_double_spend tree moves moves_meet.2 (outPoint .repeating (mint 1) 0)
  have hsums : spendings .repeating network (outPoint .repeating (mint 1) 0) (chainAt 101) = 1 ∧
      creations .repeating network (outPoint .repeating (mint 1) 0) (chainAt 101) = 1 := by
    decide +kernel
  simp only [moves_meet.1, hsums, true_and] at hbalance ⊢
  omega

/-! ### The inputs of a block -/

/-- What an input of a block has passed, over the coins that its transaction finds. -/
def InputPasses (P : Primitives) (params : Params) (mode : ScriptMode)
    (pindex : CBlockIndex) (M : CoinMap) (tx : CTransaction) (i : Fin tx.vin.length) : Prop :=
  ∃ coin, M (tx.vin.get i).prevout = some coin ∧
    (coin.fCoinBase = true → coin.nHeight + coinbaseMaturity ≤ pindex.nHeight) ∧
    (mode.fScriptChecks = true → scriptCheck P (blockScriptFlags params pindex) tx i
      coin.out = none)

variable (P params mode pindex) in
/-- All inputs of transactions pass, each over the coins that the transactions before it leave. The
coinbase has no coin to spend. -/
def InputsPass : CoinMap → List CTransaction → Prop
  | _, [] => True
  | M, tx :: rest => (tx.isCoinBase = false → ∀ i, InputPasses P params mode pindex M tx i) ∧
      InputsPass (applyTx P pindex.nHeight.toNat M tx) rest

private theorem checkInputValues_mature {nSpendHeight nValueIn sum : Int} {vin : List CTxIn}
    (h : checkInputValues fits view nSpendHeight nValueIn vin = .ok sum) : ∀ txin ∈ vin,
      ∃ coin, view.coins txin.prevout = some coin ∧
        (coin.fCoinBase = true → coin.nHeight + coinbaseMaturity ≤ nSpendHeight) := by
  induction vin generalizing nValueIn with
  | nil => simp
  | cons txin rest ih =>
    simp only [checkInputValues, bind_eq_ok_iff, rejectIf_eq_ok_iff] at h
    obtain ⟨_, hunspent, _, hmature, _, -, _, -, hrest⟩ := h
    refine forall_mem_cons.mpr ⟨?_, ih hrest⟩
    cases hcoin : view.coins txin.prevout with
    | none =>
      rw [accessCoin, hcoin] at hunspent
      cases hunspent
    | some coin =>
      rw [accessCoin, hcoin] at hmature
      refine ⟨coin, rfl, fun hcoinbase => ?_⟩
      simp only [Option.getD_some, hcoinbase, Bool.true_and, decide_eq_false_iff_not] at hmature
      omega

private theorem connectTransaction_inputs {first : Bool}
    (h : connectTransaction P params fits mode pindex first s tx = .ok s')
    (hfailed : s'.failed = none) :
    s.failed = none ∧ (tx.isCoinBase = false → ∀ i, InputPasses P params mode pindex
      s.view.coins tx i) := by
  simp only [connectTransaction, bind_eq_ok_iff] at h
  obtain ⟨nFees, hinputs, _, -, _, -, _, -, hret⟩ := h
  cases hret
  obtain ⟨hbefore, hscripts⟩ := Option.or_eq_none_iff.mp hfailed
  refine ⟨hbefore, fun htx i => ?_⟩
  have hnot : ¬ tx.isCoinBase = true := by simp [htx]
  simp only [connectInputs, if_neg hnot, bind_eq_ok_iff, asBlockFailure_eq_ok_iff, checkTxInputs]
    at hinputs
  obtain ⟨_, ⟨_, -, _, hvalues, -⟩, -⟩ := hinputs
  obtain ⟨coin, hcoin, hmature⟩ := checkInputValues_mature hvalues _ (get_mem tx.vin i)
  refine ⟨coin, hcoin, hmature, fun hchecks => ?_⟩
  rw [if_pos hchecks] at hscripts
  have hi := (failingInput_eq_none.mp hscripts).resolve_left hnot i
  rwa [accessCoin, hcoin] at hi

private theorem connectRest_inputs (hvtx : ∀ tx ∈ vtx, TxChecked tx)
    (h : connectRest P params fits mode pindex vtx s = .ok s') (hfailed : s'.failed = none) :
    s.failed = none ∧ InputsPass P params mode pindex s.view.coins vtx := by
  induction vtx generalizing s with
  | nil =>
    cases h
    exact ⟨hfailed, trivial⟩
  | cons tx rest ih =>
    obtain ⟨s₁, hstep, hrest⟩ := bind_eq_ok_iff.mp h
    obtain ⟨htx, hothers⟩ := forall_mem_cons.mp hvtx
    obtain ⟨_, -, hview, -⟩ := connectTransaction_spec htx hstep
    -- what a thread reports is not lost before the end
    obtain ⟨hfailed₁, hpass⟩ := ih hothers hrest
    obtain ⟨hbefore, hinputs⟩ := connectTransaction_inputs hstep hfailed₁
    rw [hview] at hpass
    exact ⟨hbefore, hinputs, hpass⟩

/-- In every accepted block but the genesis block, an input spends a coin that the transactions
before its own leave, a coin of a coinbase only a hundred blocks after it, and its scripts pass if
scripts are checked, in the loop or by threads, and no cache answers for them. -/
theorem connectBlock_inputs (h : (connectBlock P params fits mode block pprev view).isOk = true)
    (hgenesis : block.getHash P ≠ params.hashGenesisBlock) :
    InputsPass P params mode (block :: pprev) view.coins block.vtx := by
  cases hconnect : connectBlock P params fits mode block pprev view with
  | error e =>
    rw [hconnect] at h
    cases h
  | ok r =>
    simp only [connectBlock, bind_eq_ok_iff, if_neg hgenesis, connectChecked] at hconnect
    obtain ⟨_, hcheck, _, -, _, ⟨_, -, _, -, s, hloop, _, -, _, -, _, -, _, hreject, -⟩, -⟩ :=
      hconnect
    have hfailed : s.failed = none := by
      cases hs : s.failed with
      | none => rfl
      | some e =>
        rw [hs] at hreject
        cases hreject
    have hall := (checkBlock_spec hcheck).checked
    cases hvtx : block.vtx with
    | nil => trivial
    | cons tx rest =>
      rw [hvtx] at hloop hall
      obtain ⟨s₁, hfirst, hrest⟩ := bind_eq_ok_iff.mp hloop
      obtain ⟨htx, hothers⟩ := forall_mem_cons.mp hall
      obtain ⟨_, -, hview, -⟩ := connectTransaction_spec htx hfirst
      obtain ⟨hfailed₁, hpass⟩ := connectRest_inputs hothers hrest hfailed
      rw [hview] at hpass
      exact ⟨(connectTransaction_inputs hfirst hfailed₁).2, hpass⟩

namespace TwoBlocks

open CoinsStack.TwoCaches

/-- A block whose second transaction spends a coin. -/
def spending : CBlock :=
  let vtx := [coinbase [0x51], ⟨[⟨outpoint, [], 0, []⟩], [⟨1000, []⟩], 1, 0⟩]
  ⟨⟨512, genesis.getHash .repeating,
    (computeMerkleRoot .repeating (vtx.map (CTransaction.getHash .repeating))).1, 0,
    0x207fffff, 0⟩, vtx⟩

/-- Its inputs pass, and its scripts are checked by threads. -/
theorem connectBlock_inputs_spending :
    InputsPass .repeating network ⟨true, true⟩ [spending, genesis] full.coins spending.vtx := by
  have h : (connectBlock .repeating network int64Range ⟨true, true⟩ spending [genesis]
      ⟨full.coins, genesis.getHash .repeating⟩).isOk := by decide +kernel
  exact (connectBlock_inputs h (by decide +kernel) :)

end TwoBlocks

end Tessera.Validation
