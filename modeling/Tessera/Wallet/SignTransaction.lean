import Tessera.Wallet.Ownership

/-!
# Spending what the wallet owns

`SignTransaction` (`wallet/wallet.cpp`) signs with the keys in memory. It completes every input that
spends an output of the wallet's own, as `IsMine` sees it, that pays to a witness program, directly
or through a script hash, as long as the key is in memory. It completes none that spends a legacy
key hash output: these count as the wallet's own too, and no signature can spend them.
-/

namespace Tessera.Wallet

open Function Lib Script Tx List CTxIn

variable (P : Primitives)

/-! ### Signing a transaction -/

/-- The output that an outpoint names among the transactions of the wallet. -/
def coinOf (mapWallet : Txid → Option CTransaction) (o : COutPoint) : Option CTxOut :=
  (mapWallet o.hash).bind fun tx => tx.vout[o.n.toNat]?

/-- The coins that `SignTransaction` gathers; none if it misses one. -/
def gatherCoins (mapWallet : Txid → Option CTransaction) :
    List CTxIn → (COutPoint → Option CTxOut) → Option (COutPoint → Option CTxOut)
  | [], coins => some coins
  | txin :: rest, coins =>
    match coinOf mapWallet txin.prevout with
    | none => none
    | some out => gatherCoins mapWallet rest (update coins txin.prevout (some out))

/-- What the loop of `SignTransaction` builds up: the transaction, whether all went well so far, and
the errors of its inputs. -/
structure Signing where
  tx : CTransaction
  ok : Bool
  inputErrors : Nat → Option String

namespace KeyCore

variable (w : KeyCore) (coins : COutPoint → Option CTxOut)

/-- One round of the loop of `SignTransaction`. -/
def signInput (sighash : Nat)
    (rnd : Nat → CKeyID → Uint256) (s : Signing) (i : Nat) : Signing :=
  if h : i < s.tx.vin.length then
    match coins (s.tx.vin.get ⟨i, h⟩).prevout with
    | none =>
      { s with ok := false, inputErrors := update s.inputErrors i (some "Input not found") }
    | some out =>
      match signSignature P w.provider out.scriptPubKey ⟨s.tx, i, out.nValue, h⟩ sighash (rnd i)
        .empty with
      | (true, input) => { s with tx := input.tx }
      | (false, input) =>
        ⟨input.tx, false, update s.inputErrors i (some "Signing failed")⟩
  else s

/-- `CWallet::SignTransaction` with the coins given. -/
def signTransactionWith (sighash : Nat)
    (rnd : Nat → CKeyID → Uint256) (tx : CTransaction) : Signing :=
  (List.range tx.vin.length).foldl (w.signInput P coins sighash rnd) ⟨tx, true, fun _ => none⟩

/-- `CWallet::SignTransaction`, which gathers the coins from the wallet's transactions. -/
def signTransaction (mapWallet : Txid → Option CTransaction)
    (rnd : Nat → CKeyID → Uint256) (tx : CTransaction) : Bool × CTransaction :=
  match gatherCoins mapWallet tx.vin fun _ => none with
  | none => (false, tx)
  | some coins =>
    let s := w.signTransactionWith P coins sigHashAll rnd tx
    (s.ok, s.tx)

end KeyCore

/-- Whether an input of a transaction passes `VerifyScript` with the standard flags against the
output it spends. -/
def inputPasses (tx : CTransaction) (i : Nat) (out : CTxOut) : Bool :=
  if h : i < tx.vin.length then
    verifies P ⟨tx, i, out.nValue, h⟩ (tx.vin.get ⟨i, h⟩).scriptSig out.scriptPubKey
      (tx.vin.get ⟨i, h⟩).scriptWitness
  else false

namespace KeyCore

/-- `SignTransaction` has the coins of all inputs, notes no error for an input, and leaves it so
that it passes `VerifyScript` with the standard flags. -/
def Signs (w : KeyCore) (mapWallet : Txid → Option CTransaction) (rnd : Nat → CKeyID → Uint256)
    (tx : CTransaction) (i : Nat) (out : CTxOut) : Prop :=
  ∃ coins, gatherCoins mapWallet tx.vin (fun _ => none) = some coins ∧
    (w.signTransactionWith P coins sigHashAll rnd tx).inputErrors i = none ∧
    inputPasses P (w.signTransaction P mapWallet rnd tx).2 i out = true

variable {P} {w : KeyCore}

/-! ### What can be spent -/

/-- What the wallet can spend of what it counts as its own: an output that is not a legacy key hash,
with its key in memory, an amount in range, and a key hash that is not zero as a number. -/
structure Spendable (w : KeyCore) (out : CTxOut) : Prop where
  notLegacy : ∀ id : CKeyID, out.scriptPubKey ≠ payToPubkeyHashScript id.data
  canSpend : CanSpend w.provider out.nValue (w.keyOf out.scriptPubKey)

private theorem ne_pubkeyHash {script : CScript} (h : ∀ hash, solver script ≠ .pubkeyhash hash)
    (id : CKeyID) : script ≠ payToPubkeyHashScript id.data := by
  rintro rfl
  exact h id (solver_payToPubkeyHashScript id)

/-- Signing completes an input that spends the wallet's own output exactly if the output is
spendable. -/
theorem complete_iff_spendable (hfixed : FixedSizeSignatures P) (hverify : SignaturesVerify P)
    (hw : w.Consistent P) {out : CTxOut} (hmine : w.isMine out.scriptPubKey)
    {creator : SignatureCreator} (hamount : creator.input.amount = out.nValue)
    (htype : creator.nHashType < 256) :
    (produceSignature P creator w.provider out.scriptPubKey .empty).complete ↔ w.Spendable out := by
  obtain ⟨howned, -⟩ := owned_of_isMine hw hmine
  have hiff : w.Spendable out ↔ (∀ id : CKeyID, out.scriptPubKey ≠ payToPubkeyHashScript id.data) ∧
      CanSpend w.provider creator.input.amount (w.keyOf out.scriptPubKey) := by
    rw [hamount]
    exact ⟨fun h => ⟨h.notLegacy, h.canSpend⟩, fun h => ⟨h.1, h.2⟩⟩
  rw [hiff]
  generalize w.keyOf out.scriptPubKey = id at howned ⊢
  generalize out.scriptPubKey = script at howned ⊢
  cases howned with
  | pubkeyHash =>
    rw [not_complete_pubkeyHash hfixed]
    exact ⟨fun h => (by cases h), fun h => absurd rfl (h.1 id)⟩
  | witnessKeyHash =>
    rw [spendsProgram_witness.complete_iff hw.honestKeys hverify htype]
    exact (and_iff_right (ne_pubkeyHash (by simp [solver_keyHashProgram]))).symm
  | wrapped _ hscript =>
    rw [(spendsProgram_wrapped hscript).complete_iff hw.honestKeys hverify htype]
    exact (and_iff_right (ne_pubkeyHash (by simp [solver_payToScriptHashScript]))).symm

/-! ### The loop over the inputs -/

section Loop

variable {coins : COutPoint → Option CTxOut} {sighash : Nat} {rnd : Nat → CKeyID → Uint256}
  {i : Nat} {out : CTxOut}

private theorem signInput_eq {s : Signing} {d : SignatureData} (hi : i < s.tx.vin.length)
    (hout : coins (s.tx.vin.get ⟨i, hi⟩).prevout = some out)
    (hd : produceSignature P ⟨⟨s.tx, i, out.nValue, hi⟩, sighash, rnd i⟩ w.provider
      out.scriptPubKey .empty = d) :
    w.signInput P coins sighash rnd s i =
      ⟨(TxInput.update ⟨s.tx, i, out.nValue, hi⟩ d).tx, s.ok && d.complete,
      if d.complete then s.inputErrors else update s.inputErrors i (some "Signing failed")⟩ := by
  simp only [signInput, dif_pos hi, hout, signSignature, hd]
  cases d.complete <;> simp

variable (w P coins sighash rnd) in
private theorem signInput_frame (s : Signing) (j : Nat) :
    (w.signInput P coins sighash rnd s j).tx.unsigned = s.tx.unsigned ∧
      ∀ i ≠ j, (w.signInput P coins sighash rnd s j).inputErrors i = s.inputErrors i ∧
        (w.signInput P coins sighash rnd s j).tx.vin[i]? = s.tx.vin[i]? := by
  by_cases hj : j < s.tx.vin.length
  · cases hout : coins (s.tx.vin.get ⟨j, hj⟩).prevout with
    | none =>
      rw [signInput, dif_pos hj, hout]
      exact ⟨rfl, fun i hi => ⟨update_of_ne hi _ _, rfl⟩⟩
    | some out =>
      rw [signInput_eq hj hout rfl]
      refine ⟨TxInput.update_tx_unsigned _ _, fun i hi => ⟨?_, List.getElem?_set_ne hi.symm⟩⟩
      dsimp only
      split
      · rfl
      · exact update_of_ne hi _ _
  · rw [signInput, dif_neg hj]
    exact ⟨rfl, fun i _ => ⟨rfl, rfl⟩⟩

variable (w P coins sighash rnd) in
private theorem signInputs_frame (indices : List Nat) (s : Signing) :
    (indices.foldl (w.signInput P coins sighash rnd) s).tx.unsigned = s.tx.unsigned ∧ ∀ i ∉ indices,
        (indices.foldl (w.signInput P coins sighash rnd) s).inputErrors i = s.inputErrors i ∧
        (indices.foldl (w.signInput P coins sighash rnd) s).tx.vin[i]? = s.tx.vin[i]? := by
  induction indices generalizing s with
  | nil => exact ⟨rfl, fun i _ => ⟨rfl, rfl⟩⟩
  | cons j indices ih =>
    obtain ⟨htx, hother⟩ := signInput_frame P w coins sighash rnd s j
    obtain ⟨htx', hother'⟩ := ih (w.signInput P coins sighash rnd s j)
    refine ⟨htx'.trans htx, fun i hi => ?_⟩
    obtain ⟨hne, hrest⟩ := not_or.mp (mt mem_cons.mpr hi)
    exact ⟨(hother' i hrest).1.trans (hother i hne).1, (hother' i hrest).2.trans (hother i hne).2⟩

variable (w P sighash rnd) in
private theorem signTransactionWith_signed {tx : CTransaction} (hi : i < tx.vin.length)
    (hout : coins (tx.vin.get ⟨i, hi⟩).prevout = some out) :
    ∃ (input : TxInput) (d : SignatureData) (txin : CTxIn), input.nIn = i ∧
    input.amount = out.nValue ∧
      (w.signTransactionWith P coins sighash rnd tx).tx.unsigned = input.tx.unsigned ∧
      produceSignature P ⟨input, sighash, rnd i⟩ w.provider out.scriptPubKey .empty = d ∧
      ((w.signTransactionWith P coins sighash rnd tx).inputErrors i = none ↔ d.complete) ∧
      (w.signTransactionWith P coins sighash rnd tx).tx.vin[i]? = some txin ∧
      txin.scriptSig = d.scriptSig ∧ txin.scriptWitness = d.scriptWitness := by
  -- split the loop at the round of this input
  obtain ⟨before, after, hsplit⟩ := append_of_mem (mem_range.mpr hi)
  have hnodup := nodup_range (n := tx.vin.length)
  rw [hsplit, nodup_append, nodup_cons] at hnodup
  obtain ⟨-, ⟨hafter, -⟩, hdisj⟩ := hnodup
  have hbefore : i ∉ before := fun h => hdisj i h i mem_cons_self rfl
  unfold signTransactionWith
  rw [hsplit, foldl_append, foldl_cons]
  obtain ⟨-, hother⟩ := signInputs_frame P w coins sighash rnd before ⟨tx, true, fun _ => none⟩
  generalize before.foldl (w.signInput P coins sighash rnd)
    ⟨tx, true, fun _ => none⟩ = s at hother ⊢
  obtain ⟨herr, hvin⟩ := hother i hbefore
  have hget : tx.vin[i]? = some (tx.vin.get ⟨i, hi⟩) := List.getElem?_eq_getElem hi
  rw [hget] at hvin
  obtain ⟨hi', hsame⟩ := List.getElem?_eq_some_iff.mp hvin
  have hout' : coins (s.tx.vin.get ⟨i, hi'⟩).prevout = some out := by
    rw [get_eq_getElem, hsame]
    exact hout
  obtain ⟨d, hd⟩ : ∃ d, produceSignature P ⟨⟨s.tx, i, out.nValue, hi'⟩, sighash, rnd i⟩ w.provider
      out.scriptPubKey .empty = d := ⟨_, rfl⟩
  have hself := signInput_eq hi' hout' hd
  obtain ⟨htx', -⟩ := signInput_frame P w coins sighash rnd s i
  obtain ⟨htx'', hother''⟩ := signInputs_frame P w coins sighash rnd after
    (w.signInput P coins sighash rnd s i)
  rw [hself] at htx' htx'' hother'' ⊢
  refine ⟨⟨s.tx, i, out.nValue, hi'⟩, d, _, rfl, rfl, htx''.trans htx', hd, ?_,
    (hother'' i hafter).2.trans (List.getElem?_set_self hi'), rfl, rfl⟩
  rw [(hother'' i hafter).1]
  cases d.complete <;> simp [herr]

private theorem signInputs_ok {indices : List Nat} {s : Signing}
    (h : (indices.foldl (w.signInput P coins sighash rnd) s).ok) :
    (indices.foldl (w.signInput P coins sighash rnd) s).inputErrors = s.inputErrors := by
  have hstep : ∀ (s : Signing) (i : Nat), (w.signInput P coins sighash rnd s i).ok →
      s.ok ∧ (w.signInput P coins sighash rnd s i).inputErrors = s.inputErrors := by
    intro s i hok
    unfold signInput at hok ⊢
    grind
  have hrun : (indices.foldl (w.signInput P coins sighash rnd) s).ok →
      s.ok ∧ (indices.foldl (w.signInput P coins sighash rnd) s).inputErrors = s.inputErrors := by
    induction indices generalizing s with
    | nil => exact fun hok => ⟨hok, rfl⟩
    | cons i rest ih =>
      intro hok
      obtain ⟨hok', herrors⟩ := ih hok hok
      exact ⟨(hstep s i hok').1, herrors.trans (hstep s i hok').2⟩
  exact (hrun h).2

/-- Signing changes nothing but the scripts and witnesses of the inputs. -/
theorem signTransaction_unsigned (w : KeyCore) (mapWallet : Txid → Option CTransaction)
    (rnd : Nat → CKeyID → Uint256) (tx : CTransaction) :
    (w.signTransaction P mapWallet rnd tx).2.unsigned = tx.unsigned := by
  rw [signTransaction]
  split
  · rfl
  · exact (signInputs_frame P w _ sigHashAll rnd _ _).1

end Loop

variable {vin : List CTxIn} {tx : CTransaction}

private theorem gatherCoins_eq_some_iff {mapWallet : Txid → Option CTransaction}
    {coins₀ coins : COutPoint → Option CTxOut} : gatherCoins mapWallet vin coins₀ = some coins ↔
      (∀ o ∈ vin.map prevout, (coinOf mapWallet o).isSome) ∧
        coins = fun o => if o ∈ vin.map prevout then coinOf mapWallet o else coins₀ o := by
  induction vin generalizing coins₀ with
  | nil =>
    simp only [gatherCoins, map_nil, not_mem_nil, Option.some.injEq, false_imp_iff,
      implies_true, true_and]
    exact eq_comm
  | cons txin rest ih =>
    rw [gatherCoins, map_cons, forall_mem_cons]
    cases hout : coinOf mapWallet txin.prevout with
    | none => simp
    | some out =>
      have hsame : (fun o => if o ∈ rest.map prevout then coinOf mapWallet o
            else update coins₀ txin.prevout (some out) o) =
          fun o => if o ∈ txin.prevout :: rest.map prevout then coinOf mapWallet o
            else coins₀ o := by
        funext o
        by_cases heq : o = txin.prevout
        · simp [heq, hout]
        · simp [heq]
      simp only [ih, hsame, Option.isSome_some, true_and]

/-- Every input of a transaction that was signed is as `ProduceSignature` completed it for the
wallet's coin. -/
theorem signTransaction_complete {mapWallet : Txid → Option CTransaction}
    {rnd : Nat → CKeyID → Uint256} {signed : CTransaction}
    (h : w.signTransaction P mapWallet rnd tx = (true, signed)) {i : Nat} {txin : CTxIn}
    (htxin : signed.vin[i]? = some txin) :
    ∃ (out : CTxOut) (creator : SignatureCreator) (d : SignatureData),
    coinOf mapWallet txin.prevout = some out ∧
      produceSignature P creator w.provider out.scriptPubKey .empty = d ∧ d.complete ∧
      txin.scriptSig = d.scriptSig ∧ txin.scriptWitness = d.scriptWitness := by
  have hunsigned := signTransaction_unsigned (P := P) w mapWallet rnd tx
  rw [h] at hunsigned
  rw [signTransaction] at h
  split at h
  · cases h
  next coins hcoins =>
    obtain ⟨hok, hsigned⟩ := Prod.mk.inj h
    -- the input has the outpoint that it had before
    have hlength : signed.vin.length = tx.vin.length := by
      have hmap := congrArg (fun tx : CTransaction => tx.vin.length) hunsigned
      simpa [CTransaction.unsigned] using hmap
    obtain ⟨hlt, -⟩ := List.getElem?_eq_some_iff.mp htxin
    have hi : i < tx.vin.length := hlength ▸ hlt
    have hprevout : txin.prevout = (tx.vin.get ⟨i, hi⟩).prevout := by
      have hget := congrArg (fun tx : CTransaction => (tx.vin[i]?).map prevout) hunsigned
      simp only [CTransaction.unsigned, getElem?_map, htxin, getElem?_eq_getElem hi] at hget
      exact Option.some.inj hget
    have hmem : (tx.vin.get ⟨i, hi⟩).prevout ∈ tx.vin.map prevout := mem_map_of_mem (get_mem _ _)
    obtain ⟨hknown, hgathered⟩ := gatherCoins_eq_some_iff.mp hcoins
    obtain ⟨out, hout⟩ := Option.isSome_iff_exists.mp (hknown _ hmem)
    obtain ⟨input, d, txin', -, -, -, hd, herr, hvin, hsig, hwitness⟩ :=
      signTransactionWith_signed P w sigHashAll rnd hi
        ((congrFun hgathered _).trans ((if_pos hmem).trans hout))
    have hsame : txin' = txin := by
      rw [hsigned, htxin] at hvin
      exact (Option.some.inj hvin).symm
    subst hsame
    refine ⟨out, ⟨input, sigHashAll, rnd i⟩, d,
      by rw [hprevout, hout], hd, herr.mp ?_, hsig, hwitness⟩
    exact congrFun (signInputs_ok hok) i

/-- A transaction that only spends what the wallet can spend of its own is signed. -/
theorem signTransaction_of_spendable (hfixed : FixedSizeSignatures P) (hverify : SignaturesVerify P)
    (hw : w.Consistent P) {mapWallet : Txid → Option CTransaction} (rnd : Nat → CKeyID → Uint256)
    (h : ∀ txin ∈ tx.vin, ∃ out, coinOf mapWallet txin.prevout = some out ∧
      w.isMine out.scriptPubKey ∧
      w.Spendable out) : ∃ signed, w.signTransaction P mapWallet rnd tx = (true, signed) := by
  have hknown : ∀ o ∈ tx.vin.map prevout, (coinOf mapWallet o).isSome := by
    rw [forall_mem_map]
    intro txin htxin
    obtain ⟨out, hout, -⟩ := h txin htxin
    rw [hout, Option.isSome_some]
  obtain ⟨coins, hcoins⟩ : ∃ coins, gatherCoins mapWallet tx.vin (fun _ => none) = some coins :=
    ⟨_, gatherCoins_eq_some_iff.mpr ⟨hknown, rfl⟩⟩
  have htype : sigHashAll < 256 := by decide
  -- the loop keeps what inputs spend, so that each round completes
  have hstep : ∀ (s : Signing) (i : Nat), s.tx.unsigned = tx.unsigned → s.ok →
      (w.signInput P coins sigHashAll rnd s i).ok := by
    intro s i hunsigned hok
    by_cases hi : i < s.tx.vin.length
    · have hmem : (s.tx.vin.get ⟨i, hi⟩).prevout ∈ tx.vin.map prevout := by
        have hprevouts := congrArg (fun tx : CTransaction => tx.vin.map prevout) hunsigned
        simp only [CTransaction.unsigned, map_map, comp_def, unsigned] at hprevouts
        rw [← hprevouts]
        exact mem_map_of_mem (get_mem _ _)
      obtain ⟨txin, htxin, hsame⟩ := mem_map.mp hmem
      obtain ⟨out, hout, hmine, hspend⟩ := h txin htxin
      have hcoin : coins (s.tx.vin.get ⟨i, hi⟩).prevout = some out :=
        (congrFun (gatherCoins_eq_some_iff.mp hcoins).2 _).trans
          ((if_pos hmem).trans (hsame ▸ hout))
      rw [signInput_eq hi hcoin rfl, hok]
      exact (complete_iff_spendable hfixed hverify hw hmine rfl htype).mpr hspend
    · rw [signInput, dif_neg hi]
      exact hok
  have hrun : ∀ (indices : List Nat) (s : Signing), s.tx.unsigned = tx.unsigned → s.ok →
      (indices.foldl (w.signInput P coins sigHashAll rnd) s).ok := by
    intro indices
    induction indices with
    | nil => exact fun s _ hok => hok
    | cons i rest ih =>
      intro s hunsigned hok
      exact ih _ ((signInput_frame P w coins sigHashAll rnd s i).1.trans hunsigned)
        (hstep s i hunsigned hok)
  refine ⟨(w.signTransactionWith P coins sigHashAll rnd tx).tx, ?_⟩
  rw [signTransaction, hcoins]
  exact Prod.ext (hrun _ _ rfl rfl) rfl

private theorem signTransactionWith_iff_spendable (hfixed : FixedSizeSignatures P)
    (hverify : SignaturesVerify P) (hw : w.Consistent P) {mapWallet : Txid → Option CTransaction}
    {coins : COutPoint → Option CTxOut}
    (hcoins : gatherCoins mapWallet tx.vin (fun _ => none) = some coins)
    (rnd : Nat → CKeyID → Uint256) {i : Nat} (hi : i < tx.vin.length) {out : CTxOut}
    (hout : coinOf mapWallet (tx.vin.get ⟨i, hi⟩).prevout = some out)
    (hmine : w.isMine out.scriptPubKey) :
    (w.signTransactionWith P coins sigHashAll rnd tx).inputErrors i = none ∧
        inputPasses P (w.signTransaction P mapWallet rnd tx).2 i out ↔
      w.Spendable out := by
  have hmem : (tx.vin.get ⟨i, hi⟩).prevout ∈ tx.vin.map prevout :=
    mem_map_of_mem (get_mem _ _)
  have hcoin := (congrFun (gatherCoins_eq_some_iff.mp hcoins).2 _).trans ((if_pos hmem).trans hout)
  obtain ⟨input, d, txin, hindex, hamount, hunsigned, hd, herr, hvin, hsig, hwitness⟩ :=
    signTransactionWith_signed P w sigHashAll rnd hi hcoin
  have hsign : (w.signTransaction P mapWallet rnd tx).2 =
      (w.signTransactionWith P coins sigHashAll rnd tx).tx := by
    simp [signTransaction, hcoins]
  have htype : sigHashAll < 256 := by decide
  have hiff : (produceSignature P ⟨input, sigHashAll, rnd i⟩ w.provider out.scriptPubKey
    .empty).complete ↔
      w.Spendable out := complete_iff_spendable hfixed hverify hw hmine hamount htype
  rw [hsign, herr, ← hiff, hd]
  generalize (w.signTransactionWith P coins sigHashAll rnd tx).tx = final at hunsigned hvin ⊢
  refine and_iff_left_of_imp fun hcomplete => ?_
  -- the input is as the signer left it, and the rest does not matter for its signature
  obtain ⟨hlen, hfinal⟩ := List.getElem?_eq_some_iff.mp hvin
  have hverifies := verifies_of_complete (d := .empty) rfl
    ((congrArg SignatureData.complete hd).trans hcomplete)
  rw [hd] at hverifies
  have hsame : verifies P ⟨final, i, out.nValue, hlen⟩ d.scriptSig out.scriptPubKey
      d.scriptWitness = verifies P input d.scriptSig out.scriptPubKey d.scriptWitness := by
    rw [verifies, TxInput.checker_congr (u := input) hunsigned hindex.symm hamount.symm]
    rfl
  rw [inputPasses, dif_pos hlen, get_eq_getElem, hfinal, hsig, hwitness, hsame]
  exact hverifies

/-- The outcome of `SignTransaction` for an input that spends the wallet's own output. -/
theorem signs_iff_spendable (hfixed : FixedSizeSignatures P) (hverify : SignaturesVerify P)
    (hw : w.Consistent P) {mapWallet : Txid → Option CTransaction}
    (rnd : Nat → CKeyID → Uint256) {i : Nat} (hi : i < tx.vin.length) {out : CTxOut}
    (hout : coinOf mapWallet (tx.vin.get ⟨i, hi⟩).prevout = some out)
    (hmine : w.isMine out.scriptPubKey) : w.Signs P mapWallet rnd tx i out ↔
      (∀ txin ∈ tx.vin, (coinOf mapWallet txin.prevout).isSome) ∧ w.Spendable out := by
  constructor
  · rintro ⟨coins, hcoins, hsigned⟩
    refine ⟨forall_mem_map.mp (gatherCoins_eq_some_iff.mp hcoins).1, ?_⟩
    exact (signTransactionWith_iff_spendable hfixed hverify hw hcoins rnd hi hout hmine).mp hsigned
  · rintro ⟨hknown, hspend⟩
    obtain ⟨coins, hcoins⟩ : ∃ coins, gatherCoins mapWallet tx.vin (fun _ => none) = some coins :=
      ⟨_, gatherCoins_eq_some_iff.mpr ⟨forall_mem_map.mpr hknown, rfl⟩⟩
    exact ⟨coins, hcoins, (signTransactionWith_iff_spendable hfixed hverify hw hcoins rnd hi hout
      hmine).mpr hspend⟩

theorem consistent_run (ops : List KeyOp) : (run (step P) (new .empty) ops).Consistent P :=
  run_invariant (C := fun _ _ => True) (fun _ op h _ => h.step op) (consistent_new .empty)
    (meets_of_forall fun _ _ _ => trivial)

private theorem held_run {ops : List KeyOp} (h : ∀ op ∈ ops, KeepsKeys op) :
    (run (step P) (new .empty) ops).Held P := by
  have hnew : (new .empty).Held P :=
    ⟨fun id hid => absurd hid (Finset.notMem_empty id), fun i hi => absurd hi (Nat.not_lt_zero i)⟩
  exact run_invariant (C := fun _ op => KeepsKeys op) (fun _ _ h => h.step) hnew
    (meets_of_forall fun op hop _ => h op hop)

/-- In every wallet that a run leads to, `SignTransaction` completes an input that spends an output
of the wallet's own, and the input passes `VerifyScript` with the standard flags, exactly if the
wallet has the transactions that the other inputs spend too, the output is not a legacy key hash,
its key is in memory, its amount is in range and its key hash is not zero as a number. The key is in
memory unless the run has locked or reloaded the wallet. -/
theorem isMine_signTransaction_iff (hfixed : FixedSizeSignatures P) (hverify : SignaturesVerify P)
    (ops : List KeyOp) (mapWallet : Txid → Option CTransaction) (tx : CTransaction)
    (rnd : Nat → CKeyID → Uint256) {i : Nat} (hi : i < tx.vin.length) {out : CTxOut}
    (hout : coinOf mapWallet (tx.vin.get ⟨i, hi⟩).prevout = some out)
    (hmine : (run (step P) (new .empty) ops).isMine out.scriptPubKey = true) :
    ((run (step P) (new .empty) ops).Signs P mapWallet rnd tx i out ↔
      (∀ txin ∈ tx.vin, (coinOf mapWallet txin.prevout).isSome = true) ∧
        (run (step P) (new .empty) ops).Spendable out) ∧
    ((∀ op ∈ ops, KeepsKeys op) → (run (step P) (new .empty) ops).haveKey
        ((run (step P) (new .empty) ops).keyOf out.scriptPubKey) = true) := by
  have hw := consistent_run (P := P) ops
  refine ⟨signs_iff_spendable hfixed hverify hw rnd hi hout hmine, fun hkeeps => ?_⟩
  obtain ⟨-, hknown⟩ := owned_of_isMine hw hmine
  exact hknown.elim id ((held_run hkeeps).ids _)

/-! ### A wallet with one address -/

namespace OneAddress

/-- A seeded wallet that has handed out one address. -/
def ops : List KeyOp := [.setSeed (.fill 32 7), .getNewDestination ""]

def wallet : KeyCore := run (step .repeating) (new .empty) ops

/-- The identifier of its key. -/
def keyid : CKeyID := .fill 20 7

variable (script : CScript)

/-- A transaction that pays to a script. -/
def funding : CTransaction := ⟨[], [⟨1000, script⟩], 2, 0⟩

def spending : CTransaction :=
  ⟨[⟨⟨(funding script).getHash .repeating, 0⟩, [], 0xffffffff, []⟩], [⟨900, script⟩], 2, 0⟩

/-- The transactions of the wallet: the one that pays. -/
def mapWallet : Txid → Option CTransaction :=
  update (fun _ => none) ((funding script).getHash .repeating) (some (funding script))

private theorem coinOf_prevout (script : CScript) :
    coinOf (mapWallet script) ⟨(funding script).getHash .repeating, 0⟩ = some ⟨1000, script⟩ := by
  rw [coinOf, mapWallet, update_self]
  rfl

private theorem coins_spending (script : CScript) :
    ∀ txin ∈ (spending script).vin, (coinOf (mapWallet script) txin.prevout).isSome := by
  rintro txin (_ | ⟨_, ⟨⟩⟩)
  rw [coinOf_prevout, Option.isSome_some]

theorem key_of_derive {child : CExtKey}
    (h : ((new .empty).setSeed .repeating (.fill 32 7)).hdMaster.derive
    .repeating 0 = some child) : child.key = Primitives.repeating.key 7 := by
  have hmap : (((new .empty).setSeed .repeating (.fill 32 7)).hdMaster.derive .repeating 0).map
      (fun c => c.nodeseed.head) = some 7 := rfl
  have hhead : child.nodeseed.head = 7 := by
    rw [h] at hmap
    exact Option.some.inj hmap
  rw [CExtKey.derive_key _ h, Primitives.repeating.makeKeyFromSeed_eq, hhead]

/-- The wallet has the key, and the witness program of its hash. -/
theorem wallet_maps : wallet.mapKeys keyid = some (Primitives.repeating.key 7) ∧
    wallet.mapScripts (hash160 .repeating (witnessProgramScript keyid.data)) =
      some (witnessProgramScript keyid.data) := by
  obtain ⟨seeded, hseeded⟩ : ∃ seeded, (new .empty).setSeed .repeating (.fill 32 7) = seeded :=
    ⟨_, rfl⟩
  have hwallet : wallet = (seeded.getNewDestination .repeating "").2 := by
    rw [← hseeded]
    rfl
  obtain ⟨hfail, -⟩ | ⟨child, _, _, _, _, -, hchild, -, -, -, heq, -⟩ :=
    seeded.getNewDestination_cases (P := .repeating) ""
  · rw [← hseeded] at hfail
    obtain h | h := hfail
    · cases h
    · cases h
  have hkey : child.key = Primitives.repeating.key 7 := by
    rw [← hseeded] at hchild
    exact key_of_derive hchild
  have hid : (Primitives.repeating.key 7).getPubKey.getID .repeating = keyid :=
    Primitives.repeating.key_getID 7
  rw [hwallet, heq]
  simp only [addKey, hkey, hid]
  trivial

theorem wallet_mapKeys : wallet.mapKeys keyid = some (Primitives.repeating.key 7) := wallet_maps.1

theorem wallet_owns (script : CScript) (hdest : extractDestination script = some (.pkHash keyid) ∨
    extractDestination script = some (.witnessV0KeyHash keyid)) :
    wallet.isMine script ∧ wallet.keyOf script = keyid := by
  have hnull : keyid.isNull = false := by decide
  have hhave : wallet.haveKey keyid := by rw [haveKey, wallet_mapKeys]; rfl
  obtain h | h := hdest
  · simp [isMine, keyOf, h, getKeyForDestination, hnull, hhave]
  · simp [isMine, keyOf, h, getKeyForDestination, hnull, hhave]

theorem fixedSizeSignatures : FixedSizeSignatures .repeating := by
  intro pk msg sig h
  have heq : sig = (Blob.fill 2420 pk.head).data := by simpa [Primitives.repeating] using h
  rw [heq]
  exact Blob.size_eq _

theorem signaturesVerify : SignaturesVerify .repeating := by
  intro seed rnd msg sig h
  rw [Primitives.repeating.makeKeyFromSeed_eq] at h ⊢
  rw [Primitives.repeating.key_sign] at h
  cases h
  exact (Primitives.repeating.key_verify _ _ msg).mpr rfl

end OneAddress

open OneAddress in
/-- The wallet spends an output that pays to the witness program of its key. -/
theorem isMine_signTransaction_witnessKeyHash : Signs .repeating
    (run (step .repeating) (new .empty) ops)
    (mapWallet (witnessProgramScript keyid.data)) (fun _ _ => .null 32)
    (spending (witnessProgramScript keyid.data)) 0 ⟨1000, witnessProgramScript keyid.data⟩ := by
  obtain ⟨hmine, hkeyOf⟩ := wallet_owns (witnessProgramScript keyid.data)
    (.inr (by rw [extractDestination, solver_keyHashProgram]))
  have hiff := isMine_signTransaction_iff fixedSizeSignatures signaturesVerify ops _
    (spending (witnessProgramScript keyid.data)) (fun _ _ => .null 32) (i := 0) (by decide)
    (coinOf_prevout _) hmine
  refine hiff.1.mpr ⟨coins_spending _, ?_, ?_⟩
  · exact ne_pubkeyHash (by simp [solver_keyHashProgram])
  · change CanSpend wallet.provider 1000 (wallet.keyOf (witnessProgramScript keyid.data))
    rw [hkeyOf]
    exact ⟨by rw [provider_getKey, wallet_mapKeys, Option.isSome_some], by decide, by decide⟩

open OneAddress in
/-- An output that pays to the legacy key hash of the same key counts as the wallet's own, and is
not signed. -/
theorem isMine_pubkeyHash_not_signed :
    wallet.isLocked = false ∧ wallet.isMine (payToPubkeyHashScript keyid.data) = true ∧
      ¬ wallet.Signs .repeating (mapWallet (payToPubkeyHashScript keyid.data)) (fun _ _ => .null 32)
        (spending (payToPubkeyHashScript keyid.data)) 0
          ⟨1000, payToPubkeyHashScript keyid.data⟩ := by
  obtain ⟨hmine, -⟩ := wallet_owns (payToPubkeyHashScript keyid.data)
    (.inl (by rw [extractDestination, solver_payToPubkeyHashScript]))
  have hi : 0 < (spending (payToPubkeyHashScript keyid.data)).vin.length := by decide
  have hiff := signs_iff_spendable fixedSizeSignatures signaturesVerify (consistent_run ops)
    (fun _ _ => .null 32) hi (coinOf_prevout _) hmine
  exact ⟨rfl, hmine, fun h => (hiff.mp h).2.notLegacy keyid rfl⟩

end KeyCore

end Tessera.Wallet
