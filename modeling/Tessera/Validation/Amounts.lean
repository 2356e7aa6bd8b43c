import Tessera.Validation.ConnectSpec

/-!
# The sums of amounts stay in range

`ConnectBlock` adds amounts in 64 bits. The development runs it twice, with the sums that 64 bits
hold (`int64Range`) and with the sums that are amounts of money (`moneyRange`): no sum overflows,
and if a sum is not an amount then the block is rejected, so that the two runs accept the same
blocks with the same result.
-/

namespace Tessera.Validation

open Coins Lib Lib.PartialMap Script Tx

/-- Two runs of a computation, of which the first stops at a sum that is not an amount and the
second at one that 64 bits do not hold: the second never does so, and the first succeeds if the
second does. -/
structure Agrees {ρ α : Type} (x y : Except (Failure ρ) α) : Prop where
  no_overflow : y ≠ .error .overflow
  weaker : Weaker x y

section Agrees

variable {ρ α β : Type}

private theorem agrees_self {x : Except (Failure ρ) α} (h : x ≠ .error .overflow) : Agrees x x :=
  ⟨h, .refl x⟩

private theorem agrees_ok (a : α) : Agrees (.ok a : Except (Failure ρ) α) (.ok a) :=
  agrees_self (by simp)

private theorem agrees_rejectIf (c : Bool) (result : ρ) (reason debug : String) :
    Agrees (rejectIf c result reason debug) (rejectIf c result reason debug) :=
  agrees_self (by cases c <;> simp [rejectIf])

private theorem agrees_assertThat (c : Bool) (what : String) :
    Agrees (assertThat c what : Except (Failure ρ) Unit) (assertThat c what) :=
  agrees_self (by cases c <;> simp [assertThat])

theorem Agrees.onlyIf {x y : Except (Failure ρ) Unit} (h : Agrees x y) (c : Bool) :
    Agrees (onlyIf c x) (onlyIf c y) := by
  cases c with
  | true => exact h
  | false => exact agrees_ok ()

theorem Agrees.bind {x y : Except (Failure ρ) α} {f g : α → Except (Failure ρ) β} (h : Agrees x y)
    (hf : ∀ a, y = .ok a → Agrees (f a) (g a)) : Agrees (x >>= f) (y >>= g) := by
  cases hy : y with
  | error e =>
    refine ⟨fun herr => h.no_overflow (hy.trans ?_), weaker_error _ e⟩
    exact congrArg Except.error (Except.error.inj herr)
  | ok a =>
    rw [h.weaker a hy]
    exact hf a hy

/-- Two amounts are added, and what follows refuses a sum that is not an amount. -/
theorem agrees_addAmount_bind {a b : Int} {f g : CAmount → Except (Failure ρ) β}
    (ha : moneyRange a) (hb : moneyRange b)
    (hf : moneyRange (a + b) → Agrees (f (a + b)) (g (a + b)))
    (hrefused : moneyRange (a + b) = false → ∃ e, g (a + b) = .error e ∧ e ≠ .overflow) :
    Agrees (addAmount moneyRange a b >>= f) (addAmount int64Range a b >>= g) := by
  have hfits : int64Range (a + b) := by
    rw [moneyRange_iff] at ha hb
    rw [int64Range_iff]
    omega
  have hsum : (addAmount int64Range a b : Except (Failure ρ) CAmount) = .ok (a + b) :=
    addAmount_eq_ok_iff.mpr ⟨hfits, rfl⟩
  rw [hsum]
  change Agrees _ (g (a + b))
  cases hrange : moneyRange (a + b) with
  | true =>
    rw [addAmount, if_pos hrange]
    exact hf hrange
  | false =>
    obtain ⟨e, herror, hne⟩ := hrefused hrange
    rw [herror]
    exact ⟨fun h => hne (Except.error.inj h), weaker_error _ e⟩

theorem Agrees.asBlockFailure {x y : Except (Failure TxValidationResult) α} (h : Agrees x y)
    (debug : String → String) : Agrees (asBlockFailure debug x) (asBlockFailure debug y) := by
  refine ⟨?_, fun a ha => ?_⟩
  · have := h.no_overflow
    rcases y with (_ | _ | _) | _ <;> simp_all [Validation.asBlockFailure]
  · rw [asBlockFailure_eq_ok_iff] at ha ⊢
    exact h.weaker a ha

end Agrees

/-! ### A transaction by itself -/

variable {nValueOut nSpendHeight : Int} {ρ : Type} {fits : AmountRange}

private theorem checkOutputValues_agrees (vout : List CTxOut) (h : moneyRange nValueOut) :
    Agrees (checkOutputValues moneyRange nValueOut vout)
      (checkOutputValues int64Range nValueOut vout) := by
  induction vout generalizing nValueOut with
  | nil => exact agrees_ok ()
  | cons txout rest ih =>
    refine (agrees_rejectIf ..).bind fun _ hneg => (agrees_rejectIf ..).bind fun _ hlarge => ?_
    have hvalue : moneyRange txout.nValue := by
      simp only [rejectIf_eq_ok_iff, decide_eq_false_iff_not, not_lt] at hneg hlarge
      simp only [moneyRange, Bool.and_eq_true, decide_eq_true_eq]
      exact ⟨hneg, hlarge⟩
    refine agrees_addAmount_bind h hvalue (fun hsum => ?_) fun hsum => ?_
    · exact (agrees_rejectIf ..).bind fun _ _ => ih hsum
    · exact ⟨_, by rw [hsum]; rfl, by simp⟩

private theorem checkTransaction_agrees (tx : CTransaction) :
    Agrees (checkTransaction moneyRange tx) (checkTransaction int64Range tx) := by
  refine (agrees_rejectIf ..).bind fun _ _ => (agrees_rejectIf ..).bind fun _ _ =>
    (agrees_rejectIf ..).bind fun _ _ => (checkOutputValues_agrees tx.vout rfl).bind fun _ _ =>
    (agrees_rejectIf ..).bind fun _ _ => ?_
  unfold checkInputForm
  split
  · exact agrees_rejectIf ..
  · exact agrees_rejectIf ..

private theorem valueOutFrom_agrees (vout : List CTxOut) (h : moneyRange nValueOut) :
    Agrees (valueOutFrom moneyRange nValueOut vout : Except (Failure ρ) CAmount)
      (valueOutFrom int64Range nValueOut vout) := by
  induction vout generalizing nValueOut with
  | nil => exact agrees_ok nValueOut
  | cons txout rest ih =>
    refine (agrees_assertThat ..).bind fun _ hvalue => ?_
    refine agrees_addAmount_bind h (assertThat_eq_ok_iff.mp hvalue) (fun hsum => ?_) fun hsum => ?_
    · exact (agrees_assertThat ..).bind fun _ _ => ih hsum
    · exact ⟨_, by rw [hsum]; rfl, by simp⟩

private theorem getValueOut_agrees (tx : CTransaction) :
    Agrees (getValueOut moneyRange tx : Except (Failure ρ) CAmount) (getValueOut int64Range tx) :=
  (valueOutFrom_agrees tx.vout rfl).bind fun sum _ =>
    (agrees_assertThat ..).bind fun _ _ => agrees_ok sum

/-! ### A transaction and its coins -/

/-- The values of all coins are amounts. -/
def ValuesGood (M : CoinMap) : Prop := ∀ o coin, M o = some coin → moneyRange coin.out.nValue = true

variable {P : Primitives} {params : Params} {mode : ScriptMode} {pindex : CBlockIndex}
  {view : CCoinsView} {tx : CTransaction}

theorem ValuesGood.applyTx {M : CoinMap} {nHeight : Nat} (h : ValuesGood M) (htx : TxChecked tx) :
    ValuesGood (applyTx P nHeight M tx) := by
  intro o coin hcoin
  cases hcreated : created P nHeight tx o with
  | some coin' =>
    rw [Validation.applyTx, overlay_of_some hcreated] at hcoin
    cases hcoin
    exact htx.values _ (created_eq_some hcreated).1
  | none =>
    rw [Validation.applyTx, overlay_of_none hcreated] at hcoin
    by_cases ho : o ∈ spentOutPoints tx
    · rw [without_of_mem ho] at hcoin
      cases hcoin
    · rw [without_of_not_mem ho] at hcoin
      exact h o coin hcoin

private theorem checkInputValues_agrees {nValueIn : Int} (hview : ValuesGood view.coins)
    (vin : List CTxIn) (h : moneyRange nValueIn) :
    Agrees (checkInputValues moneyRange view nSpendHeight nValueIn vin)
      (checkInputValues int64Range view nSpendHeight nValueIn vin) := by
  induction vin generalizing nValueIn with
  | nil => exact agrees_ok nValueIn
  | cons txin rest ih =>
    refine (agrees_assertThat ..).bind fun _ hunspent => (agrees_rejectIf ..).bind fun _ _ => ?_
    -- the coin is there, since the null coin counts as spent
    have hvalue : moneyRange (accessCoin view txin.prevout).out.nValue := by
      cases hcoin : view.coins txin.prevout with
      | some coin =>
        rw [accessCoin, hcoin]
        exact hview _ _ hcoin
      | none =>
        rw [accessCoin, hcoin] at hunspent
        cases hunspent
    refine agrees_addAmount_bind h hvalue (fun hsum => ?_) fun hsum => ?_
    · exact (agrees_rejectIf ..).bind fun _ _ => ih hsum
    · exact ⟨_, by rw [hsum, Bool.not_false, Bool.or_true]; rfl, by simp⟩

private theorem checkTxInputs_agrees (hview : ValuesGood view.coins) (nSpendHeight : Int) :
    Agrees (checkTxInputs moneyRange tx view nSpendHeight)
      (checkTxInputs int64Range tx view nSpendHeight) :=
  (agrees_rejectIf ..).bind fun _ _ => (checkInputValues_agrees hview tx.vin rfl).bind fun _ _ =>
    (getValueOut_agrees tx).bind fun _ _ => (agrees_rejectIf ..).bind fun _ _ =>
    (agrees_rejectIf ..).bind fun _ _ => agrees_ok _

private theorem checkTxInputs_fee {txfee : CAmount}
    (h : checkTxInputs fits tx view nSpendHeight = .ok txfee) : moneyRange txfee := by
  simp only [checkTxInputs, bind_eq_ok_iff] at h
  obtain ⟨_, -, _, -, _, -, _, -, _, hrange, hret⟩ := h
  cases hret
  simpa using hrange

/-! ### The loop of `ConnectBlock` -/

/-- The values of the coins are amounts, and so are the fees so far. -/
def Connecting.Good (s : Connecting) : Prop := ValuesGood s.view.coins ∧ moneyRange s.nFees = true

variable {s s' : Connecting}

private theorem connectInputs_agrees (hs : s.Good) :
      Agrees (connectInputs P params moneyRange pindex tx s)
      (connectInputs P params int64Range pindex tx s) := by
  unfold connectInputs
  split
  · exact agrees_ok s.nFees
  refine ((checkTxInputs_agrees hs.1 _).asBlockFailure _).bind fun txfee hfee => ?_
  have hrange := checkTxInputs_fee (asBlockFailure_eq_ok_iff.mp hfee)
  refine agrees_addAmount_bind hs.2 hrange (fun _ => ?_) fun hsum => ?_
  · exact (agrees_rejectIf ..).bind fun _ _ => (agrees_rejectIf ..).bind fun _ _ => agrees_ok _
  · exact ⟨_, by rw [hsum]; rfl, by simp⟩

private theorem connectInputs_fees {nFees : CAmount} (hfees : moneyRange s.nFees)
    (h : connectInputs P params fits pindex tx s = .ok nFees) : moneyRange nFees := by
  unfold connectInputs at h
  split at h
  · cases h
    exact hfees
  simp only [bind_eq_ok_iff] at h
  obtain ⟨_, -, _, -, _, hrange, _, -, hret⟩ := h
  cases hret
  simpa using hrange

private theorem addCoinsFrom_agrees (nHeight i : Nat) (vout : List CTxOut) (view : CCoinsView) :
    Agrees (addCoinsFrom P tx nHeight i vout view : Except (Failure ρ) CCoinsView)
      (addCoinsFrom P tx nHeight i vout view) := by
  induction vout generalizing i view with
  | nil => exact agrees_ok view
  | cons txout rest ih =>
    refine (agrees_self ?_).bind fun view' _ => ih (i + 1) view'
    unfold addCoin
    split
    · simp
    · split
      · simp
      · split <;> simp

private theorem spendInputs_agrees (vin : List CTxIn) (view : CCoinsView) :
    Agrees (spendInputs vin view : Except (Failure ρ) (List Coin × CCoinsView))
      (spendInputs vin view) := by
  induction vin generalizing view with
  | nil => exact agrees_ok ([], view)
  | cons txin rest ih =>
    exact (agrees_assertThat ..).bind fun _ _ => (ih _).bind fun _ _ => agrees_ok _

private theorem updateCoins_agrees (nHeight : Nat) (view : CCoinsView) :
    Agrees (updateCoins P tx view nHeight : Except (Failure ρ) (CTxUndo × CCoinsView))
      (updateCoins P tx view nHeight) := by
  have hspend : Agrees (spendInputsOf tx view : Except (Failure ρ) (List Coin × CCoinsView))
      (spendInputsOf tx view) := by
    unfold spendInputsOf
    split
    · exact agrees_ok ([], view)
    · exact spendInputs_agrees tx.vin view
  exact hspend.bind fun _ _ => (addCoinsFrom_agrees nHeight 0 tx.vout _).bind fun _ _ => agrees_ok _

private theorem rejectScript_agrees (failed : Option (ScriptError × String)) :
    Agrees (rejectScript failed) (rejectScript failed) :=
  agrees_self (by cases failed <;> simp [rejectScript])

private theorem connectTransaction_agrees (hs : s.Good) (first : Bool) :
    Agrees (connectTransaction P params moneyRange mode pindex first s tx)
      (connectTransaction P params int64Range mode pindex first s tx) :=
  (connectInputs_agrees hs).bind fun _ _ => (agrees_rejectIf ..).bind fun _ _ =>
    ((rejectScript_agrees _).onlyIf _).bind fun _ _ => (updateCoins_agrees _ _).bind fun _ _ =>
    agrees_ok _

/-- What the sums need to be in range lasts through a round of the loop. -/
theorem connectTransaction_good {first : Bool} (hs : s.Good) (htx : TxChecked tx)
    (h : connectTransaction P params fits mode pindex first s tx = .ok s') : s'.Good := by
  obtain ⟨_, -, hview', -, hinputs⟩ := connectTransaction_spec htx h
  refine ⟨?_, connectInputs_fees hs.2 hinputs⟩
  rw [hview']
  exact hs.1.applyTx htx

variable {vtx : List CTransaction}

private theorem connectRest_agrees (hvtx : ∀ tx ∈ vtx, TxChecked tx) (hs : s.Good) :
    Agrees (connectRest P params moneyRange mode pindex vtx s)
      (connectRest P params int64Range mode pindex vtx s) := by
  induction vtx generalizing s with
  | nil => exact agrees_ok s
  | cons tx rest ih =>
    obtain ⟨htx, hothers⟩ := List.forall_mem_cons.mp hvtx
    exact (connectTransaction_agrees hs false).bind fun s' hs' =>
      ih hothers (connectTransaction_good hs htx hs')

private theorem connectRest_good (hvtx : ∀ tx ∈ vtx, TxChecked tx) (hs : s.Good)
    (h : connectRest P params fits mode pindex vtx s = .ok s') : s'.Good := by
  induction vtx generalizing s with
  | nil =>
    cases h
    exact hs
  | cons tx rest ih =>
    obtain ⟨htx, hothers⟩ := List.forall_mem_cons.mp hvtx
    obtain ⟨s₁, hstep, hrest⟩ := bind_eq_ok_iff.mp h
    exact ih hothers (connectTransaction_good hs htx hstep) hrest

/-! ### Blocks -/

private theorem checkTransactions_agrees (vtx : List CTransaction) :
    Agrees (checkTransactions P moneyRange vtx) (checkTransactions P int64Range vtx) := by
  induction vtx with
  | nil => exact agrees_ok ()
  | cons tx rest ih => exact ((checkTransaction_agrees tx).asBlockFailure _).bind fun _ _ => ih

private theorem checkBlock_agrees (block : CBlock) (fCheckPOW fCheckMerkleRoot : Bool) :
    Agrees (checkBlock P moneyRange params block fCheckPOW fCheckMerkleRoot)
      (checkBlock P int64Range params block fCheckPOW fCheckMerkleRoot) := by
  have hroot : Agrees (checkMerkleRoot P block) (checkMerkleRoot P block) :=
    (agrees_rejectIf ..).bind fun _ _ => agrees_rejectIf ..
  exact ((agrees_rejectIf ..).onlyIf fCheckPOW).bind fun _ _ => (hroot.onlyIf _).bind fun _ _ =>
    (agrees_rejectIf ..).bind fun _ _ => (agrees_rejectIf ..).bind fun _ _ =>
    (agrees_rejectIf ..).bind fun _ _ => (checkTransactions_agrees block.vtx).bind fun _ _ =>
    agrees_rejectIf ..

variable (params) in
theorem getBlockSubsidy_range (nHeight : Nat) :
    0 ≤ getBlockSubsidy params nHeight ∧ getBlockSubsidy params nHeight ≤ 5000000000 := by
  unfold getBlockSubsidy
  dsimp only
  split
  · exact ⟨Int.le_refl 0, by decide⟩
  · have hcoin : (50 * coin : Int) = 5000000000 := rfl
    rw [hcoin]
    exact ⟨Int.ediv_nonneg (by decide) (Int.pow_nonneg (by decide)), Int.ediv_le_self _ (by decide)⟩

/-- The sum of the fees and the subsidy is not checked, and need not be. -/
theorem addAmount_subsidy {nFees : Int} (h : moneyRange nFees) (nHeight : Nat) :
    (addAmount int64Range nFees (getBlockSubsidy params nHeight) : Except (Failure ρ) CAmount) =
      .ok (nFees + getBlockSubsidy params nHeight) := by
  have hfits : ∀ subsidy : Int, 0 ≤ subsidy ∧ subsidy ≤ 5000000000 →
      int64Range (nFees + subsidy) := by
    intro subsidy hsubsidy
    rw [moneyRange_iff] at h
    rw [int64Range_iff]
    omega
  exact addAmount_eq_ok_iff.mpr ⟨hfits _ (getBlockSubsidy_range params nHeight), rfl⟩

private theorem connectChecked_agrees {block : CBlock} (hchecked : BlockChecked block)
    (pprev : CBlockIndex) (hview : ValuesGood view.coins) :
    Agrees (connectChecked P params moneyRange mode block pprev view)
      (connectChecked P params int64Range mode block pprev view) := by
  obtain ⟨cb, rest, hvtx, -, -⟩ := hchecked.coinbase
  have hall := hchecked.checked
  rw [hvtx] at hall
  obtain ⟨hcb, hothers⟩ := List.forall_mem_cons.mp hall
  refine (agrees_assertThat ..).bind fun _ _ => (agrees_rejectIf ..).bind fun _ _ => ?_
  rw [hvtx]
  refine Agrees.bind ?_ fun s hs => ?_
  · exact (connectTransaction_agrees ⟨hview, rfl⟩ true).bind fun s₁ hs₁ =>
      connectRest_agrees hothers (connectTransaction_good ⟨hview, rfl⟩ hcb hs₁)
  · obtain ⟨s₁, hs₁, hrest⟩ := bind_eq_ok_iff.mp hs
    have hgood := connectRest_good hothers (connectTransaction_good ⟨hview, rfl⟩ hcb hs₁) hrest
    refine (agrees_self ?_).bind fun _ _ => (getValueOut_agrees _).bind fun _ _ =>
      (agrees_rejectIf ..).bind fun _ _ => (rejectScript_agrees _).bind fun _ _ => agrees_ok _
    rw [addAmount_subsidy hgood.2]
    simp

/-- Over coins whose values are amounts, no sum of `ConnectBlock` overflows, and a block with a sum
that is not an amount is rejected. -/
theorem connectBlock_agrees (block : CBlock) (pprev : CBlockIndex) (hview : ValuesGood view.coins) :
    Agrees (connectBlock P params moneyRange mode block pprev view)
      (connectBlock P params int64Range mode block pprev view) := by
  refine (checkBlock_agrees block true true).bind fun _ hcheck =>
    (agrees_assertThat ..).bind fun _ _ => ?_
  split
  · exact agrees_ok _
  · exact (connectChecked_agrees (checkBlock_spec hcheck) pprev hview).bind fun _ _ => agrees_ok _

end Tessera.Validation
