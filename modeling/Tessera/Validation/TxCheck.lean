import Tessera.Coins.Refinement
import Tessera.Script.SigOps
import Tessera.Validation.Block

/-!
# Checking transactions

`consensus/tx_check.cpp` and `consensus/tx_verify.cpp`: the checks of a transaction by itself, and
of a transaction against the coins that it spends.

A view is the map of coins that it shows with its best block (see `Coins.Refinement`). Every sum of
amounts is made by `addAmount`, which stops the computation if the sum is not one that it may be:
the code computes in 64 bits (`int64Range`), and a sum beyond them is undefined.
-/

namespace Tessera.Validation

open Coins Script Tx

/-! ### Outcomes -/

/-- `TxValidationResult`, the results that these checks report. -/
inductive TxValidationResult where
  | consensus
  | missingInputs
  | prematureSpend
  deriving DecidableEq

/-- How a check ends other than well: the state is invalid, a sum of amounts is out of its range, or
an assertion fails or an exception is thrown. -/
inductive Failure (ρ : Type) where
  | invalid (result : ρ) (rejectReason debugMessage : String)
  | overflow
  | fault (what : String)
  deriving DecidableEq

variable {ρ : Type}

/-- `state.Invalid` if the condition holds. -/
def rejectIf (c : Bool) (result : ρ) (rejectReason : String) (debugMessage : String := "") :
    Except (Failure ρ) Unit :=
  if c then .error (.invalid result rejectReason debugMessage) else .ok ()

def assertThat (c : Bool) (what : String) : Except (Failure ρ) Unit :=
  if c then .ok () else .error (.fault what)

/-- A check that is made only if the condition holds. -/
def onlyIf (c : Bool) (check : Except (Failure ρ) Unit) : Except (Failure ρ) Unit :=
  if c then check else .ok ()

@[simp] theorem rejectIf_eq_ok_iff {ρ : Type} {c : Bool} {result : ρ} {reason debug : String}
    {u : Unit} : rejectIf c result reason debug = .ok u ↔ c = false := by
  cases c <;> simp [rejectIf]

@[simp] theorem assertThat_eq_ok_iff {ρ : Type} {c : Bool} {what : String} {u : Unit} :
    (assertThat c what : Except (Failure ρ) Unit) = .ok u ↔ c := by
  cases c <;> simp [assertThat]

/-- What a sum of amounts may be. -/
abbrev AmountRange := CAmount → Bool

/-- The amounts that 64 bits hold. -/
def int64Range : AmountRange := fun n => decide (-2 ^ 63 ≤ n) && decide (n < 2 ^ 63)

theorem int64Range_iff {n : Int} : int64Range n ↔ -2 ^ 63 ≤ n ∧ n < 2 ^ 63 := by
  rw [int64Range, Bool.and_eq_true, decide_eq_true_eq, decide_eq_true_eq]

def addAmount {ρ : Type} (fits : AmountRange) (a b : CAmount) : Except (Failure ρ) CAmount :=
  if fits (a + b) then .ok (a + b) else .error .overflow

theorem addAmount_eq_ok_iff {ρ : Type} {fits : AmountRange} {a b c : Int} :
    (addAmount fits a b : Except (Failure ρ) CAmount) = .ok c ↔ fits (a + b) ∧ a + b = c := by
  unfold addAmount
  split
  next h =>
    simp [h]
  next h =>
    simp [h]

/-! ### Text -/

def hexByte (b : UInt8) : List Char := [Nat.digitChar (b.toNat / 16), Nat.digitChar (b.toNat % 16)]

/-- `base_blob::ToString`. -/
def toHex {n : Nat} (b : Blob n) : String := String.ofList (b.data.reverse.flatMap hexByte)

/-- `FormatMoney`: at least two decimals. -/
def formatMoney (n : CAmount) : String :=
  let decimals := (Nat.toDigits 10 (n.natAbs % 100000000 + 100000000)).tail
  let rest := ((decimals.drop 2).reverse.dropWhile (· == '0')).reverse
  (if n < 0 then "-" else "") ++ toString (n.natAbs / 100000000) ++ "." ++
    String.ofList (decimals.take 2 ++ rest)

/-! ### A transaction by itself -/

section Amounts

variable (fits : AmountRange)

/-- The loop of `CheckTransaction` over the outputs. -/
def checkOutputValues : CAmount → List CTxOut → Except (Failure TxValidationResult) Unit
  | _, [] => .ok ()
  | nValueOut, txout :: rest => do
    rejectIf (decide (txout.nValue < 0)) .consensus "bad-txns-vout-negative"
    rejectIf (decide (maxMoney < txout.nValue)) .consensus "bad-txns-vout-toolarge"
    let nValueOut ← addAmount fits nValueOut txout.nValue
    rejectIf (!moneyRange nValueOut) .consensus "bad-txns-txouttotal-toolarge"
    checkOutputValues nValueOut rest

/-- The last check of `CheckTransaction`: the length of a coinbase script, or that no other input
refers to no output. -/
def checkInputForm (tx : CTransaction) : Except (Failure TxValidationResult) Unit :=
  if tx.isCoinBase then
    let size := (tx.vin.headD ⟨⟨.null 32, 0⟩, [], 0, []⟩).scriptSig.length
    rejectIf (decide (size < 2) || decide (100 < size)) .consensus "bad-cb-length"
  else
    rejectIf (tx.vin.any fun txin => txin.prevout.isNull) .consensus "bad-txns-prevout-null"

def checkTransaction (tx : CTransaction) : Except (Failure TxValidationResult) Unit := do
  rejectIf tx.vin.isEmpty .consensus "bad-txns-vin-empty"
  rejectIf tx.vout.isEmpty .consensus "bad-txns-vout-empty"
  rejectIf (decide (maxBlockWeight < (tx.serialize false).length * witnessScaleFactor)) .consensus
    "bad-txns-oversize"
  checkOutputValues fits 0 tx.vout
  rejectIf (!decide (tx.vin.map CTxIn.prevout).Nodup) .consensus "bad-txns-inputs-duplicate"
  checkInputForm tx

/-- The loop of `CTransaction::GetValueOut`. -/
def valueOutFrom {ρ : Type} : CAmount → List CTxOut → Except (Failure ρ) CAmount
  | nValueOut, [] => .ok nValueOut
  | nValueOut, txout :: rest => do
    assertThat (moneyRange txout.nValue) "GetValueOut: value out of range"
    let sum ← addAmount fits nValueOut txout.nValue
    assertThat (moneyRange sum) "GetValueOut: value out of range"
    valueOutFrom sum rest

def getValueOut {ρ : Type} (tx : CTransaction) : Except (Failure ρ) CAmount := do
  let nValueOut ← valueOutFrom fits 0 tx.vout
  assertThat (moneyRange nValueOut) "MoneyRange(nValueOut)"
  return nValueOut

/-! ### A transaction and the coins it spends -/

variable (view : CCoinsView)

/-- `CCoinsViewCache::HaveCoin` on what a view shows. -/
def haveCoin (o : COutPoint) : Bool := (view.coins o).isSome

/-- `CCoinsViewCache::AccessCoin` on what a view shows. -/
def accessCoin (o : COutPoint) : Coin := (view.coins o).getD .null

def haveInputs (tx : CTransaction) : Bool :=
  tx.isCoinBase || tx.vin.all fun txin => haveCoin view txin.prevout

/-- The loop of `CheckTxInputs` over the inputs. -/
def checkInputValues (view : CCoinsView) (nSpendHeight : Int) :
    CAmount → List CTxIn → Except (Failure TxValidationResult) CAmount
  | nValueIn, [] => .ok nValueIn
  | nValueIn, txin :: rest => do
    let coin := accessCoin view txin.prevout
    assertThat (!coin.isSpent) "!coin.IsSpent()"
    rejectIf (coin.fCoinBase && decide (nSpendHeight - coin.nHeight < coinbaseMaturity))
      .prematureSpend "bad-txns-premature-spend-of-coinbase"
      ("tried to spend coinbase at depth " ++ toString (nSpendHeight - (coin.nHeight : Int)))
    let nValueIn ← addAmount fits nValueIn coin.out.nValue
    rejectIf (!moneyRange coin.out.nValue || !moneyRange nValueIn) .consensus
      "bad-txns-inputvalues-outofrange"
    checkInputValues view nSpendHeight nValueIn rest

/-- `Consensus::CheckTxInputs`: the fee. -/
def checkTxInputs (tx : CTransaction) (view : CCoinsView) (nSpendHeight : Int) :
    Except (Failure TxValidationResult) CAmount := do
  rejectIf (!haveInputs view tx) .missingInputs "bad-txns-inputs-missingorspent"
    "CheckTxInputs: inputs missing/spent"
  let nValueIn ← checkInputValues fits view nSpendHeight 0 tx.vin
  let valueOut ← getValueOut fits tx
  rejectIf (decide (nValueIn < valueOut)) .consensus "bad-txns-in-belowout"
    ("value in (" ++ formatMoney nValueIn ++ ") < value out (" ++ formatMoney valueOut ++ ")")
  let txfee := nValueIn - valueOut
  rejectIf (!moneyRange txfee) .consensus "bad-txns-fee-outofrange"
  return txfee

end Amounts

/-! ### Lock times -/

def isFinalTx (tx : CTransaction) (nBlockHeight : Int) (nBlockTime : Int) : Bool :=
  let nLockTime : Int := tx.nLockTime.toNat
  nLockTime == 0 ||
    decide (nLockTime < if nLockTime < lockTimeThreshold then nBlockHeight else nBlockTime) ||
    tx.vin.all fun txin => txin.nSequence == CTxIn.sequenceFinal

/-- One round of the loop of `CalculateSequenceLocks`. -/
def sequenceLockStep (pindex : CBlockIndex) (locks : Int × Int) (txin : CTxIn) (nCoinHeight : Int) :
    Int × Int :=
  let n := txin.nSequence.toNat
  if n.testBit 31 then locks
  else if n.testBit 22 then
    let nCoinTime : Int := (pindex.getAncestor (max (nCoinHeight - 1) 0)).getMedianTimePast
    (locks.1, max locks.2 (nCoinTime + ((n % 2 ^ 16) * 2 ^ 9 : Nat) - 1))
  else (max locks.1 (nCoinHeight + (n % 2 ^ 16 : Nat) - 1), locks.2)

def calculateSequenceLocks (tx : CTransaction) (verifySequence : Bool) (prevHeights : List Int)
    (pindex : CBlockIndex) : Int × Int :=
  if decide (2 ≤ tx.version.toNat) && verifySequence then
    (tx.vin.zip prevHeights).foldl (fun locks p => sequenceLockStep pindex locks p.1 p.2) (-1, -1)
  else (-1, -1)

def sequenceLocks (tx : CTransaction) (verifySequence : Bool) (prevHeights : List Int)
    (pindex : CBlockIndex) : Bool :=
  let lockPair := calculateSequenceLocks tx verifySequence prevHeights pindex
  let nBlockTime : Int := CBlockIndex.getMedianTimePast pindex.tail
  !(decide (pindex.nHeight ≤ lockPair.1) || decide (nBlockTime ≤ lockPair.2))

/-- Without a lock by time it is only the height that counts. -/
theorem sequenceLocks_of_pair {tx verifySequence prevHeights pindex nMinHeight}
    (h : calculateSequenceLocks tx verifySequence prevHeights pindex = (nMinHeight, -1))
    (hheight : nMinHeight < pindex.nHeight) : sequenceLocks tx verifySequence
      prevHeights pindex := by
  rw [sequenceLocks, h, Bool.not_eq_true', Bool.or_eq_false_iff]
  exact ⟨decide_eq_false (not_le.mpr hheight), decide_eq_false (by omega)⟩

/-! ### Counting signature operations -/

def getLegacySigOpCount (tx : CTransaction) : Nat :=
  (tx.vin.map fun txin => getSigOpCount false txin.scriptSig).sum +
    (tx.vout.map fun txout => getSigOpCount false txout.scriptPubKey).sum

/-- `CScript::GetSigOpCount` of a script hash output with the script that spends it. -/
def scriptHashSigOpCount (scriptSig : CScript) : Nat :=
  if isPushOnly scriptSig then getSigOpCount true (lastOperand scriptSig) else 0

def getP2SHSigOpCount (tx : CTransaction) (view : CCoinsView) : Nat :=
  if tx.isCoinBase then 0
  else
    (tx.vin.map fun txin => if isPayToScriptHash
      (accessCoin view txin.prevout).out.scriptPubKey then scriptHashSigOpCount txin.scriptSig
      else 0).sum

def getTransactionSigOpCost (tx : CTransaction) (view : CCoinsView) (flags : ScriptFlags) : Nat :=
  getLegacySigOpCount tx * witnessScaleFactor +
    if tx.isCoinBase then 0
    else
      (if .p2sh ∈ flags then getP2SHSigOpCount tx view * witnessScaleFactor else 0) +
        (tx.vin.map fun txin =>
          countWitnessSigOps flags txin.scriptSig (accessCoin view txin.prevout).out.scriptPubKey
            txin.scriptWitness).sum

/-! ### The signature checks of a block -/

variable {σ : Type}

/-- The checks that `CheckInputScripts` makes for the inputs of a transaction, with their checkers.
-/
def inputChecks (checker : CTransaction → Nat → Checker σ) (tx : CTransaction) (view : CCoinsView) :
    List (ScriptCheck σ) :=
  if tx.isCoinBase then []
  else tx.vin.zipIdx.map fun (txin, i) =>
    ⟨checker tx i, txin.scriptSig, (accessCoin view txin.prevout).out.scriptPubKey,
      txin.scriptWitness⟩

private theorem witnessSigOpCost_inputChecks_le (checker : CTransaction → Nat → Checker σ)
    (tx : CTransaction) (view : CCoinsView) (flags : ScriptFlags) :
    witnessSigOpCost flags (inputChecks checker tx view) ≤ getTransactionSigOpCost tx
      view flags := by
  by_cases hcoinbase : tx.isCoinBase
  · simp [inputChecks, witnessSigOpCost, hcoinbase]
  · have hinputs : witnessSigOpCost flags (inputChecks checker tx view) = (tx.vin.map fun txin =>
        countWitnessSigOps flags txin.scriptSig (accessCoin view txin.prevout).out.scriptPubKey
          txin.scriptWitness).sum := by
      nth_rewrite 1 [← List.zipIdx_map_fst 0 tx.vin]
      rw [witnessSigOpCost, inputChecks, if_neg hcoinbase, List.map_map, List.map_map]
      rfl
    rw [hinputs, getTransactionSigOpCost, if_neg hcoinbase]
    omega

/-- The checks of transactions, each over its own view, are counted by the costs of the
transactions. -/
theorem witnessSigOpCost_flatMap_le (checker : CTransaction → Nat → Checker σ)
    (txs : List (CTransaction × CCoinsView)) (flags : ScriptFlags) :
    witnessSigOpCost flags (txs.flatMap fun p => inputChecks checker p.1 p.2) ≤
      (txs.map fun p => getTransactionSigOpCost p.1 p.2 flags).sum := by
  induction txs with
  | nil => exact Nat.le_refl 0
  | cons p txs ih =>
    have hfirst := witnessSigOpCost_inputChecks_le checker p.1 p.2 flags
    simp only [witnessSigOpCost, List.flatMap_cons, List.map_append, List.sum_append, List.map_cons,
      List.sum_cons] at hfirst ih ⊢
    omega

/-- A verification that succeeds calls the checker under witness v0 at most as often as
`CountWitnessSigOps` says, and checks that all succeed at most as often as it says together. So the
inputs of the transactions of a block, each over the view that it is connected to, do so at most as
often as `GetTransactionSigOpCost` counts for the transactions. -/
theorem verifyScript_calls_le_countWitnessSigOps (P : Primitives) (flags : ScriptFlags)
    (hw : .witness ∈ flags) :
    (∀ (checker : Checker σ) (scriptSig scriptPubKey : CScript) (witness : CScriptWitness)
        (c c' : σ), (verifyScript P flags checker scriptSig scriptPubKey witness).Returns c () c' →
      ∃ calls, (verifyScript P flags checker.counting scriptSig scriptPubKey witness).Returns
          (c, 0) () (c', calls) ∧
        calls ≤ countWitnessSigOps flags scriptSig scriptPubKey witness) ∧
    (∀ (checks : List (ScriptCheck σ)) (c c' : σ),
      (checkInputScripts P flags checks).Returns c () c' →
      ∃ calls, (checkInputScripts P flags (checks.map ScriptCheck.counting)).Returns
          (c, 0) () (c', calls) ∧
        calls ≤ witnessSigOpCost flags checks) ∧
    ∀ (checker : CTransaction → Nat → Checker σ)
    (txs : List (CTransaction × CCoinsView)) (c c' : σ),
      (checkInputScripts P flags (txs.flatMap fun p => inputChecks checker p.1 p.2)).Returns c
        () c' →
      ∃ calls, (checkInputScripts P flags
          ((txs.flatMap fun p => inputChecks checker p.1 p.2).map ScriptCheck.counting)).Returns
          (c, 0) () (c', calls) ∧
        calls ≤ (txs.map fun p => getTransactionSigOpCost p.1 p.2 flags).sum := by
  refine ⟨?_, ?_, ?_⟩
  · intro checker scriptSig scriptPubKey witness c c' h
    obtain ⟨calls, hrun, hle⟩ := verifyScript_counting hw 0 h
    exact ⟨calls, hrun, by omega⟩
  · intro checks c c' h
    obtain ⟨calls, hrun, hle⟩ := checkInputScripts_counting hw 0 h
    exact ⟨calls, hrun, by omega⟩
  · intro checker txs c c' h
    obtain ⟨calls, hrun, hle⟩ := checkInputScripts_counting hw 0 h
    have hcost := witnessSigOpCost_flatMap_le checker txs flags
    exact ⟨calls, hrun, by omega⟩

/-- The bound at a script hash program whose script is a single `OP_CHECKSIG`, with a hash that is
constant and a checker that accepts everything. -/
theorem verifyScript_calls_le_of_checkSig : ∃ calls,
      (verifyScript { (default : Primitives) with sha3_256 := fun _ => ⟨List.replicate 32 1, rfl⟩ }
        {.p2sh, .witness}
        (⟨fun _ _ _ _ c => (true, c), fun _ => false, fun _ => false⟩ : Checker Unit).counting
        [] (0x00 :: 0x20 :: List.replicate 32 1) [[], [], [0xac]]).Returns ((), 0) () ((), calls) ∧
      calls ≤ countWitnessSigOps {.p2sh, .witness} [] (0x00 :: 0x20 :: List.replicate 32 1)
        [[], [], [0xac]] := by
  refine (verifyScript_calls_le_countWitnessSigOps _ _ (by decide)).1 _ _ _ _ () () ?_
  rfl

end Tessera.Validation
