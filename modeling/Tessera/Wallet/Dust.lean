import Tessera.Wallet.CreateTransaction

/-!
# What dust costs

The dust threshold counts a signature and a key of 107 bytes. An input that spends an output of the
wallet has more than thirty times that, so that an output may cost far more than it is worth without
being dust.
-/

namespace Tessera.Wallet

open Lib Policy Script Tx KeyCore

variable {P : Primitives}

/-- An output of the wallet is small, and it can be spent. -/
theorem KeyCore.Owned.outputSize_le {w : KeyCore} {script : CScript} {id : CKeyID}
    (h : Owned P w script id) (nValue : Int) :
    isUnspendable script = false ∧ outputSize ⟨nValue, script⟩ =
      outputSize ⟨0, script⟩ ∧ 0 ≤ outputSize ⟨0, script⟩ ∧ outputSize ⟨0, script⟩ ≤ 34 := by
  have hsize : ∀ (n : Int) (s : CScript), s.length ≤ 25 → outputSize ⟨n, s⟩ = 9 + s.length := by
    intro n s hs
    rw [outputSize, CTxOut.serialize, serializeInt64, serializeBytes, writeCompactSize,
      if_pos (show s.length < 253 by omega)]
    simp only [List.length_append, writeLE_length, List.length_singleton]
    omega
  have hpush : ∀ id : CKeyID, (pushData id.data).length = 21 := by
    intro id
    simp [pushData, appendDataSize, id.size_eq]
  have hscript : isUnspendable script = false ∧ script.length ≤ 25 := by
    cases h with
    | pubkeyHash => simp [isUnspendable, payToPubkeyHashScript, hpush, maxScriptSize]
    | witnessKeyHash => simp [isUnspendable, witnessProgramScript, hpush, maxScriptSize]
    | wrapped => simp [isUnspendable, payToScriptHashScript, hpush, maxScriptSize]
  rw [hsize nValue script hscript.2, hsize 0 script hscript.2]
  exact ⟨hscript.1, rfl, by omega, by omega⟩

/-- A much larger size costs no more only if it costs a single satoshi. -/
theorem getFee_le_getFee_iff {r : CFeeRate} {n m : Int} (hn : 0 < n) (hm : 2 * n ≤ m) :
    r.getFee m ≤ r.getFee n ↔ r.size = 0 ∨ r.fee ≤ 0 ∨ r.fee * m ≤ r.size := by
  by_cases hsize : r.size = 0
  · simp [CFeeRate.getFee, hsize]
  have hpos : (0 : Int) < r.size := Int.natCast_pos.mpr (pos_of_ne_zero hsize)
  have hup : ∀ k, r.fee * k ≤ r.evaluateFeeUp k * r.size := fun k =>
    (r.evaluateFeeUp_le_iff hsize k _).mp (le_refl _)
  rcases Int.lt_or_le 0 r.fee with hfee | hfee
  · rw [r.getFee_of_nonneg hfee.le hsize, r.getFee_of_nonneg hfee.le hsize,
      r.evaluateFeeUp_le_iff hsize]
    have hone : 1 ≤ r.evaluateFeeUp n := by
      by_contra hlt
      have := (r.evaluateFeeUp_le_iff hsize n 0).mp (by omega)
      have := mul_pos hfee hn
      omega
    refine ⟨fun h => .inr (.inr ?_), fun h => ?_⟩
    · -- two satoshis for the smaller size would be paid for by less than the larger one costs
      have hbelow : ¬ r.fee * n ≤ (r.evaluateFeeUp n - 1) * r.size := fun hle => by
        have := (r.evaluateFeeUp_le_iff hsize n _).mpr hle
        omega
      have hmul := mul_le_mul_of_nonneg_left hm hfee.le
      rw [sub_mul] at hbelow
      rw [← mul_assoc, mul_comm r.fee 2, mul_assoc] at hmul
      by_contra hlt
      have htwo := mul_le_mul_of_nonneg_right (show 2 ≤ r.evaluateFeeUp n from ?_) hpos.le
      · omega
      · by_contra hsmall
        rw [show r.evaluateFeeUp n = 1 by omega, one_mul] at h
        exact hlt h
    · have := mul_le_mul_of_nonneg_right hone hpos.le
      omega
  · refine iff_of_true ?_ (.inr (.inl hfee))
    have hle : r.evaluateFeeUp m ≤ r.evaluateFeeUp n := by
      rw [r.evaluateFeeUp_le_iff hsize]
      exact le_trans (Int.mul_le_mul_of_nonpos_left hfee (by omega)) (hup n)
    rw [CFeeRate.getFee, CFeeRate.getFee, if_neg hsize]
    dsimp only
    split <;> split <;> omega

/-- Outputs of the wallet that are not dust are worth what it costs to create and to spend them just
if that is a single satoshi, or nothing. -/
theorem isDust_economical_iff (ops : List KeyOp) {script : CScript}
    (hmine : (run (step P) (new .empty) ops).isMine script = true) (dustRelayFee : CFeeRate) :
    (∀ nValue : Int, isDust ⟨nValue, script⟩ dustRelayFee = false →
        dustRelayFee.getFee (outputSize ⟨nValue, script⟩ + maxP2WPKHInputWeight) ≤ nValue) ↔
      dustRelayFee.size = 0 ∨ dustRelayFee.fee ≤ 0 ∨
        dustRelayFee.fee * (outputSize ⟨0, script⟩ + maxP2WPKHInputWeight) ≤ dustRelayFee.size := by
  have howned := (owned_of_isMine (consistent_run ops) hmine).1
  obtain ⟨hspendable, -, hpos, hle⟩ := howned.outputSize_le 0
  have hinput : maxP2WPKHInputWeight = 3782 := by decide
  have hdust : ∀ nValue : Int, isDust ⟨nValue, script⟩ dustRelayFee = false ↔
      dustRelayFee.getFee (outputSize ⟨0, script⟩ + 148) ≤ nValue := by
    intro nValue
    rw [isDust, getDustThreshold, if_neg (by simp [hspendable]), decide_eq_false_iff_not, not_lt]
    rfl
  rw [← getFee_le_getFee_iff (n := outputSize ⟨0, script⟩ + 148) (by omega) (by omega)]
  refine ⟨fun h => ?_, fun h nValue hvalue => ?_⟩
  · have hleast := h _ ((hdust _).mpr (le_refl _))
    rwa [(howned.outputSize_le _).2.1] at hleast
  · rw [(howned.outputSize_le nValue).2.1]
    exact le_trans h ((hdust nValue).mp hvalue)

open OneAddress

/-- An output of a satoshi, at a feerate of a satoshi for five thousand bytes. -/
theorem isDust_economical_low :
    CFeeRate.getFee ⟨1, 5000⟩
      (outputSize ⟨1, witnessProgramScript keyid.data⟩ + maxP2WPKHInputWeight) ≤ 1 :=
  (isDust_economical_iff ops
    (wallet_owns _ (.inr (by rw [extractDestination, solver_keyHashProgram]))).1
    ⟨1, 5000⟩).mpr (by decide) 1 (by decide)

/-- At the default feerate, an output of 537 satoshis to an address of the wallet is not dust, and
it costs 11439 satoshis to create and to spend it. -/
theorem isDust_uneconomical : OneAddress.wallet.isMine (witnessProgramScript keyid.data) = true ∧
    isDust ⟨537, witnessProgramScript keyid.data⟩ ⟨3000, 1000⟩ = false ∧
      CFeeRate.getFee ⟨3000, 1000⟩
        (outputSize ⟨537, witnessProgramScript keyid.data⟩ + maxP2WPKHInputWeight) = 11439 :=
  ⟨(wallet_owns _ (.inr (by rw [extractDestination, solver_keyHashProgram]))).1,
    by decide, by decide⟩

end Tessera.Wallet
