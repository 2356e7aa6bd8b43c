import Tessera.Validation.Effects

/-!
# What a connected block has passed

Specifications of `CheckTransaction`, `CheckBlock` and `ConnectBlock` for blocks that they accept:
the form of such a block, and that connecting it applies its transactions one after the other, with
an undo record of the coins that they spend.
-/

namespace Tessera.Validation

open Coins Lib Tx List

/-! ### Sizes -/

variable {α : Type} {s s' : Connecting} {view view' : CCoinsView}

theorem length_le_length_flatMap {f : α → Bytes} (hf : ∀ x, 1 ≤ (f x).length)
    (xs : List α) : xs.length ≤ (xs.flatMap f).length := by
  induction xs with
  | nil => exact le_refl 0
  | cons x xs ih =>
    have := hf x
    simp only [flatMap_cons, length_append, length_cons]
    omega

theorem CTxIn.one_le_length_serialize (txin : CTxIn) : 1 ≤ txin.serialize.length := by
  simp only [CTxIn.serialize, COutPoint.serialize, length_append, txin.prevout.hash.size_eq]
  omega

theorem CTxOut.one_le_length_serialize (txout : CTxOut) : 1 ≤ txout.serialize.length := by
  simp only [CTxOut.serialize, serializeInt64, length_append, writeLE_length]
  omega

theorem vin_length_le (tx : CTransaction) : tx.vin.length ≤ (tx.serialize false).length := by
  have := length_le_length_flatMap CTxIn.one_le_length_serialize tx.vin
  simp only [CTransaction.serialize, serializeVector, length_append]
  omega

theorem vout_length_le (tx : CTransaction) : tx.vout.length ≤ (tx.serialize false).length := by
  have := length_le_length_flatMap CTxOut.one_le_length_serialize tx.vout
  simp only [CTransaction.serialize, serializeVector, length_append]
  omega

/-! ### Transactions -/

/-- The sum of the outputs. -/
def valueOut (tx : CTransaction) : CAmount := (tx.vout.map CTxOut.nValue).sum

/-- What `CheckTransaction` has made sure of. -/
structure TxChecked (tx : CTransaction) : Prop where
  inputs : tx.vin ≠ []
  size : (tx.serialize false).length ≤ 32000000
  values : ∀ txout ∈ tx.vout, moneyRange txout.nValue = true
  total : moneyRange (valueOut tx) = true
  nodup : (tx.vin.map CTxIn.prevout).Nodup

variable {P : Primitives} {params : Params} {fits : AmountRange}

private theorem checkOutputValues_spec {nValueOut : Int} {vout : List CTxOut}
    (h : checkOutputValues fits nValueOut vout = .ok ()) :
    (∀ txout ∈ vout, moneyRange txout.nValue) ∧
      (moneyRange nValueOut → moneyRange (nValueOut + (vout.map CTxOut.nValue).sum)) := by
  induction vout generalizing nValueOut with
  | nil => simp
  | cons txout rest ih =>
    simp only [checkOutputValues, bind_eq_ok_iff] at h
    obtain ⟨_, hneg, _, hlarge, sum, hadd, _, hrange, hrest⟩ := h
    obtain ⟨-, rfl⟩ := addAmount_eq_ok_iff.mp hadd
    obtain ⟨hvalues, htotal⟩ := ih hrest
    have hvalue : moneyRange txout.nValue := by
      simp only [rejectIf_eq_ok_iff, decide_eq_false_iff_not, not_lt] at hneg hlarge
      simp only [moneyRange, Bool.and_eq_true, decide_eq_true_eq]
      exact ⟨hneg, hlarge⟩
    refine ⟨forall_mem_cons.mpr ⟨hvalue, hvalues⟩, fun _ => ?_⟩
    simp only [rejectIf_eq_ok_iff, Bool.not_eq_false'] at hrange
    have := htotal hrange
    rwa [map_cons, sum_cons, ← add_assoc]

variable {tx : CTransaction} {vtx : List CTransaction} {block : CBlock}

private theorem checkTransaction_spec (h : checkTransaction fits tx = .ok ()) : TxChecked tx := by
  simp only [checkTransaction, bind_eq_ok_iff] at h
  obtain ⟨_, hvin, _, -, _, hsize, _, hvalues, _, hnodup, -⟩ := h
  obtain ⟨hrange, htotal⟩ := checkOutputValues_spec hvalues
  simp only [rejectIf_eq_ok_iff, isEmpty_eq_false_iff,
    Bool.not_eq_false', decide_eq_true_eq] at hvin hsize hnodup
  refine ⟨hvin, ?_, hrange, ?_, hnodup⟩
  · simpa [maxBlockWeight, witnessScaleFactor] using hsize
  · have := htotal rfl
    rwa [zero_add] at this

theorem TxChecked.vout_length (h : TxChecked tx) : tx.vout.length ≤ 2 ^ 32 := by
  have := vout_length_le tx
  have := h.size
  omega

/-! ### Blocks -/

/-- What `CheckBlock` has made sure of. -/
structure BlockChecked (block : CBlock) : Prop where
  size : block.vtx.length ≤ 32000000
  checked : ∀ tx ∈ block.vtx, TxChecked tx
  coinbase : ∃ tx rest, block.vtx = tx :: rest ∧ tx.isCoinBase = true ∧ ∀ tx ∈ rest,
    tx.isCoinBase = false

theorem asBlockFailure_eq_ok_iff {debug : String → String}
    {r : Except (Failure TxValidationResult) α} {a : α} :
    asBlockFailure debug r = .ok a ↔ r = .ok a := by
  rcases r with (_ | _ | _) | _ <;> simp [asBlockFailure]

private theorem checkTransactions_spec (h : checkTransactions P fits vtx = .ok ()) : ∀ tx ∈ vtx,
    TxChecked tx := by
  induction vtx with
  | nil => simp
  | cons tx rest ih =>
    obtain ⟨_, htx, hrest⟩ := bind_eq_ok_iff.mp h
    exact forall_mem_cons.mpr
      ⟨checkTransaction_spec (asBlockFailure_eq_ok_iff.mp htx), ih hrest⟩

theorem checkTransactions_of_forall (h : ∀ tx ∈ vtx, checkTransaction int64Range tx = .ok ()) :
    checkTransactions P int64Range vtx = .ok () := by
  induction vtx with
  | nil => rfl
  | cons tx rest ih =>
    rw [checkTransactions, h tx mem_cons_self]
    exact ih fun tx' htx' => h tx' (mem_cons_of_mem tx htx')

theorem checkBlock_spec {fCheckPOW fCheckMerkleRoot : Bool}
    (h : checkBlock P fits params block fCheckPOW fCheckMerkleRoot = .ok ()) :
    BlockChecked block := by
  simp only [checkBlock, bind_eq_ok_iff] at h
  obtain ⟨_, -, _, -, _, hsize, _, hfirst, _, hothers, _, htxs, -⟩ := h
  simp only [rejectIf_eq_ok_iff, Bool.or_eq_false_iff, decide_eq_false_iff_not]
    at hsize hfirst hothers
  refine ⟨?_, checkTransactions_spec htxs, ?_⟩
  · simpa [maxBlockWeight, witnessScaleFactor] using hsize.1.2
  cases hvtx : block.vtx with
  | nil => simp [hvtx] at hsize
  | cons tx rest =>
    rw [hvtx] at hfirst hothers
    refine ⟨tx, rest, rfl, by simpa using hfirst, ?_⟩
    simpa using hothers

/-! ### Connecting -/

theorem nHeight_cons (block : CBlock) (pprev : CBlockIndex) :
    (CBlockIndex.nHeight (block :: pprev)).toNat = pprev.length := by
  simp [CBlockIndex.nHeight]

variable {mode : ScriptMode} {pindex : CBlockIndex}

theorem connectTransaction_spec {first : Bool} (htx : TxChecked tx)
    (h : connectTransaction P params fits mode pindex first s tx = .ok s') :
    ∃ txundo : CTxUndo, Spends s.view.coins tx txundo.vprevout ∧
      s'.view = { s.view with coins := applyTx P pindex.nHeight.toNat s.view.coins tx } ∧
      s'.vtxundo = (if first then s.vtxundo else s.vtxundo ++ [txundo]) ∧
      connectInputs P params fits pindex tx s = .ok s'.nFees := by
  simp only [connectTransaction, bind_eq_ok_iff] at h
  obtain ⟨nFees, hinputs, _, -, _, -, ⟨txundo, view⟩, hupdate, hret⟩ := h
  cases hret
  obtain ⟨hspends, hview⟩ := updateCoins_spec htx.vout_length hupdate
  exact ⟨txundo, hspends, hview, rfl, hinputs⟩

private theorem connectRest_spec
    (hvtx : ∀ tx ∈ vtx, TxChecked tx) (h : connectRest P params fits mode pindex vtx s = .ok s') :
    ∃ undos : List CTxUndo, s'.vtxundo = s.vtxundo ++ undos ∧ undos.length = vtx.length ∧
      s'.view.hashBlock = s.view.hashBlock ∧
      Applies P pindex.nHeight.toNat s.view.coins (vtx.zip (undos.map some)) s'.view.coins := by
  induction vtx generalizing s with
  | nil =>
    cases h
    exact ⟨[], (append_nil _).symm, rfl, rfl, rfl⟩
  | cons tx rest ih =>
    obtain ⟨s₁, hstep, hrest⟩ := bind_eq_ok_iff.mp h
    obtain ⟨htx, hothers⟩ := forall_mem_cons.mp hvtx
    obtain ⟨txundo, hspends, hview, hundo, -⟩ := connectTransaction_spec htx hstep
    obtain ⟨undos, hundos, hlength, hhash, happlies⟩ := ih hothers hrest
    refine ⟨txundo :: undos, ?_, by simp [hlength], ?_, ?_⟩
    · rw [hundos, hundo]
      simp
    · rw [hhash, hview]
    · rw [hview] at happlies
      exact ⟨hspends, happlies⟩

/-- What `ConnectBlock` does with a block that it accepts and that is not the genesis block. -/
structure Connected (P : Primitives) (block : CBlock) (pprev : CBlockIndex)
    (view view' : CCoinsView) (blockundo : CBlockUndo) : Prop where
  checked : BlockChecked block
  prev : pprev ≠ []
  best : view.hashBlock = pprev.getBlockHash P
  best' : view'.hashBlock = block.getHash P
  length : blockundo.vtxundo.length + 1 = block.vtx.length
  applies : Applies P pprev.length view.coins (block.vtx.zip (none :: blockundo.vtxundo.map some))
    view'.coins

variable {pprev : CBlockIndex}

private theorem connectChecked_spec
    {blockundo : CBlockUndo} (hchecked : BlockChecked block)
    (hbest : view.hashBlock = pprev.getBlockHash P)
    (h : connectChecked P params fits mode block pprev view = .ok (view', blockundo)) :
    Connected P block pprev view view' blockundo := by
  simp only [connectChecked, bind_eq_ok_iff] at h
  obtain ⟨_, hprev, _, -, s, hloop, _, -, _, -, _, -, _, -, hret⟩ := h
  cases hret
  obtain ⟨cb, rest, hvtx, hcoinbase, -⟩ := hchecked.coinbase
  have hall := hchecked.checked
  rw [hvtx] at hall hloop
  obtain ⟨htx, hothers⟩ := forall_mem_cons.mp hall
  -- the coinbase spends nothing, so that its record is empty and is not kept
  obtain ⟨s₁, hfirst, hrest⟩ := bind_eq_ok_iff.mp hloop
  obtain ⟨txundo, hspends, hview, hundo, -⟩ := connectTransaction_spec htx hfirst
  obtain ⟨undos, hundos, hlength, -, happlies⟩ := connectRest_spec hothers hrest
  have hnone : spentOutPoints cb = [] := if_pos hcoinbase
  have hempty : txundo.vprevout = [] := by
    have := hspends.length
    rw [hnone] at this
    exact eq_nil_of_length_eq_zero this
  rw [hundo] at hundos
  simp only [if_true, nil_append] at hundos
  simp only [assertThat_eq_ok_iff, Bool.not_eq_true', isEmpty_eq_false_iff] at hprev
  refine ⟨hchecked, hprev, hbest, rfl, ?_, ?_⟩
  · rw [hundos, hvtx, hlength, length_cons]
  rw [hvtx, hundos]
  rw [hempty] at hspends
  rw [hview] at happlies
  rw [nHeight_cons] at happlies
  exact ⟨hspends, happlies⟩

theorem connectBlock_spec {blockundo : Option CBlockUndo}
    (h : connectBlock P params fits mode block pprev view = .ok (view', blockundo)) :
    (block.getHash P = params.hashGenesisBlock ∧ blockundo = none ∧
        view' = { view with hashBlock := block.getHash P }) ∨
      block.getHash P ≠ params.hashGenesisBlock ∧
        ∃ undo, blockundo = some undo ∧ Connected P block pprev view view' undo := by
  simp only [connectBlock, bind_eq_ok_iff] at h
  obtain ⟨_, hcheck, _, hbest, hbind⟩ := h
  simp only [assertThat_eq_ok_iff, beq_iff_eq] at hbest
  split at hbind
  next hgenesis =>
    cases hbind
    exact .inl ⟨hgenesis, rfl, rfl⟩
  next hgenesis =>
    obtain ⟨⟨view₁, undo⟩, hconnect, hret⟩ := bind_eq_ok_iff.mp hbind
    cases hret
    exact .inr ⟨hgenesis, undo, rfl, connectChecked_spec (checkBlock_spec hcheck)
      hbest.symm hconnect⟩

end Tessera.Validation
