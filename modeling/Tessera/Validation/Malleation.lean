import Tessera.Tx.Unserialize
import Tessera.Validation.Reorg

/-!
# Blocks with one header

The hash of a block is the hash of its header. Somebody who passes a block on can change everything
that the header does not commit to, and a node that took the result for a proof that the header is
bad would never accept the block itself. `CheckBlock` and `ContextualCheckBlock` report such changes
as `BLOCK_MUTATED`, which says nothing about the header.

* `checkAcceptBlock`: the two checks one after the other.
* `hashedBytes`: the strings that they hash. No hash function is injective on all strings; of a hash
  function it is assumed only that the strings of the two blocks do not collide.
* `checkAcceptBlock_blameless`: if one of two blocks with a header is accepted then the other one is
  accepted or mutated, unless it has no transactions and the root in the header is null. That is the
  root of no transactions, and the code reports a block without transactions as a failure for good.
-/

namespace Tessera.Validation

open Lib Script Tx Merkle List CTransaction

/-! ### Data that the transaction tree commits to -/

section Strip

/-- A block without witnesses. -/
def CBlock.strip (block : CBlock) : CBlock := { block with vtx := block.vtx.map CTransaction.strip }

variable (tx : CTransaction)

@[simp] theorem serialize_strip : tx.strip.serialize false = tx.serialize false := by
  simp only [serialize, strip, serializeVector, length_map, flatMap_map]
  rfl

@[simp] theorem getHash_strip (P : Primitives) : tx.strip.getHash P = tx.getHash P := by
  rw [getHash, serialize_strip, getHash]

@[simp] theorem isCoinBase_strip : tx.strip.isCoinBase = tx.isCoinBase := by
  obtain ⟨vin, vout, version, nLockTime⟩ := tx
  rcases vin with _ | ⟨txin, _ | ⟨txin', rest⟩⟩ <;> rfl

@[simp] theorem getLegacySigOpCount_strip : getLegacySigOpCount tx.strip =
    getLegacySigOpCount tx := by
  simp only [getLegacySigOpCount, strip, map_map]
  rfl

@[simp] theorem isFinalTx_strip (nBlockHeight nBlockTime : Int) :
    isFinalTx tx.strip nBlockHeight nBlockTime = isFinalTx tx nBlockHeight nBlockTime := by
  simp only [isFinalTx, strip, all_map]
  rfl

@[simp] theorem checkInputForm_strip : checkInputForm tx.strip = checkInputForm tx := by
  have hany : (tx.strip.vin.any fun txin => txin.prevout.isNull) =
      tx.vin.any fun txin => txin.prevout.isNull := by
    rw [strip, any_map]
    rfl
  have hscript : (tx.strip.vin.headD ⟨⟨.null 32, 0⟩, [], 0, []⟩).scriptSig =
      (tx.vin.headD ⟨⟨.null 32, 0⟩, [], 0, []⟩).scriptSig := by
    rw [strip]
    cases tx.vin <;> rfl
  simp only [checkInputForm, isCoinBase_strip, hany, hscript]

@[simp] theorem checkTransaction_strip (fits : AmountRange) :
    checkTransaction fits tx.strip = checkTransaction fits tx := by
  have hprevouts : tx.strip.vin.map CTxIn.prevout = tx.vin.map CTxIn.prevout := by
    rw [strip, map_map]
    rfl
  have hempty : tx.strip.vin.isEmpty = tx.vin.isEmpty := by
    rw [strip]
    cases tx.vin <;> rfl
  simp only [checkTransaction, hprevouts, hempty, serialize_strip, checkInputForm_strip]
  rfl

private theorem checkTransactions_strip (P : Primitives) (fits : AmountRange)
    (vtx : List CTransaction) :
    checkTransactions P fits (vtx.map CTransaction.strip) = checkTransactions P fits vtx := by
  induction vtx with
  | nil => rfl
  | cons tx rest ih =>
    simp [checkTransactions, ih]

private theorem serialize_block_strip (block : CBlock) : block.strip.serialize false =
    block.serialize false := by
  simp [CBlock.serialize, CBlock.strip, serializeVector, flatMap_map]

/-- After the merkle root `CheckBlock` does not look at witnesses. -/
theorem checkBlock_strip (P : Primitives) (fits : AmountRange) (params : Params) (block : CBlock) :
    checkBlock P fits params block.strip false false = checkBlock P fits params block
      false false := by
  have hcoinbase : isCoinBase ∘ strip = isCoinBase :=
    funext isCoinBase_strip
  have hsigops : getLegacySigOpCount ∘ strip = getLegacySigOpCount :=
    funext getLegacySigOpCount_strip
  have hfirst : (block.vtx.map strip).head?.any isCoinBase = block.vtx.head?.any isCoinBase := by
    cases block.vtx with
    | nil => rfl
    | cons tx rest => exact isCoinBase_strip tx
  have hempty : (block.vtx.map strip).isEmpty = block.vtx.isEmpty := by
    cases block.vtx <;> rfl
  simp only [checkBlock, serialize_block_strip]
  simp only [CBlock.strip, hempty, length_map, hfirst, ← map_tail, any_map, hcoinbase,
    checkTransactions_strip, map_map, hsigops]
  -- what is left are the two checks that are not made
  rfl

end Strip

/-! ### The checks, in parts -/

section Parts

variable (P : Primitives) (params : Params)

/-- The checks of `AcceptBlock` that read the transactions. -/
def checkAcceptBlock (block : CBlock) (pindexPrev : CBlockIndex) :
    Except (Failure BlockValidationResult) Unit := do
  checkBlock P int64Range params block true true
  contextualCheckBlock P params block pindexPrev

/-- The checks of `ContextualCheckBlock` before the one of the witnesses. -/
def contextualCheckStripped (block : CBlock) (pindexPrev : CBlockIndex) :
    Except (Failure BlockValidationResult) Unit := do
  let nHeight := pindexPrev.nHeight + 1
  let enforceMedianTimePast := pindexPrev.deploymentActiveAfter params.csvHeight
  assertThat (!enforceMedianTimePast || !pindexPrev.isEmpty) "pindexPrev != nullptr"
  let nLockTimeCutoff : Int :=
    if enforceMedianTimePast then pindexPrev.getMedianTimePast else block.header.nTime.toNat
  rejectIf (block.vtx.any fun tx => !isFinalTx tx nHeight nLockTimeCutoff) .consensus
    "bad-txns-nonfinal" "non-final transaction"
  onlyIf (pindexPrev.deploymentActiveAfter params.bip34Height)
    (rejectIf (!(coinbaseInput block).any fun txin => (pushHeight nHeight).isPrefixOf
      txin.scriptSig) .consensus "bad-cb-height" "block height mismatch in coinbase")

theorem checkBlock_eq (block : CBlock) : checkBlock P int64Range params block true true = (do
      checkBlockHeader P params block.header
      checkMerkleRoot P block
      checkBlock P int64Range params block false false) := rfl

/-- A block within the limits passes if its parts do. -/
theorem checkBlock_eq_ok {block : CBlock}
    (hheader : checkBlockHeader P params block.header = .ok ())
    (hroot : checkMerkleRoot P block = .ok ()) (hcount : block.vtx.length ≤ maxBlockWeight)
    (hsize : (block.serialize false).length ≤ maxBlockWeight)
    (hfirst : block.vtx.head?.any CTransaction.isCoinBase)
    (hothers : block.vtx.tail.any CTransaction.isCoinBase = false)
    (htxs : checkTransactions P int64Range block.vtx = .ok ())
    (hsigops : (block.vtx.map getLegacySigOpCount).sum = 0) :
    checkBlock P int64Range params block true true = .ok () := by
  have hne : block.vtx.isEmpty = false := by
    cases hvtx : block.vtx with
    | nil => rw [hvtx] at hfirst; cases hfirst
    | cons tx rest => rfl
  rw [checkBlock_eq, hheader, hroot, checkBlock, hne, witnessScaleFactor, mul_one, mul_one,
    decide_eq_false (not_lt.mpr hcount), decide_eq_false (not_lt.mpr hsize), hfirst, hothers,
    htxs, hsigops]
  rfl

private theorem contextualCheckBlock_eq (block : CBlock) (pindexPrev : CBlockIndex) :
    contextualCheckBlock P params block pindexPrev = (do
      contextualCheckStripped params block pindexPrev
      checkWitnessMalleation P block (pindexPrev.deploymentActiveAfter params.segwitHeight)
      rejectIf (decide (maxBlockWeight < getBlockWeight block)) .consensus "bad-blk-weight"
        "ContextualCheckBlock : weight limit failed") := by
  simp [contextualCheckBlock, contextualCheckStripped]

private theorem contextualCheckStripped_strip (block : CBlock) (pindexPrev : CBlockIndex) :
    contextualCheckStripped params block.strip pindexPrev =
      contextualCheckStripped params block pindexPrev := by
  have hinput : ∀ script : CScript,
      ((coinbaseInput block.strip).any fun txin => script.isPrefixOf txin.scriptSig) =
        (coinbaseInput block).any fun txin => script.isPrefixOf txin.scriptSig := by
    intro script
    obtain ⟨header, vtx⟩ := block
    rcases vtx with _ | ⟨⟨_ | ⟨txin, rest⟩, vout, version, nLockTime⟩, vtx⟩ <;> rfl
  have hfinal : ∀ h t : Int, (block.strip.vtx.any fun tx => !isFinalTx tx h t) =
      block.vtx.any fun tx => !isFinalTx tx h t := by
    intro h t
    rw [CBlock.strip, any_map]
    exact congrArg block.vtx.any (funext fun tx => by simp)
  simp only [contextualCheckStripped, hinput, hfinal]
  rfl

private theorem getWitnessCommitment_strip (block : CBlock) :
    getWitnessCommitment block.strip = getWitnessCommitment block := by
  obtain ⟨header, vtx⟩ := block
  cases vtx <;> rfl

end Parts

/-! ### Outcomes that do not blame the header -/

/-- The check succeeds, or reports a mutation. -/
def Blameless (r : Except (Failure BlockValidationResult) Unit) : Prop :=
  r = .ok () ∨ ∃ reason debug, r = .error (.invalid .mutated reason debug)

private theorem blameless_rejectIf (c : Bool) (reason debug : String) :
    Blameless (rejectIf c .mutated reason debug) := by
  cases c with
  | false => exact .inl rfl
  | true => exact .inr ⟨reason, debug, rfl⟩

theorem Blameless.bind {r : Except (Failure BlockValidationResult) Unit}
    {f : Unit → Except (Failure BlockValidationResult) Unit} (hr : Blameless r)
    (hf : r = .ok () → Blameless (f ())) : Blameless (r >>= f) := by
  rcases hr with rfl | ⟨reason, debug, rfl⟩
  · exact hf rfl
  · exact .inr ⟨reason, debug, rfl⟩

private theorem checkMerkleRoot_blameless (P : Primitives) (block : CBlock) :
    Blameless (checkMerkleRoot P block) :=
  (blameless_rejectIf _ _ _).bind fun _ => blameless_rejectIf _ _ _

private theorem checkWitnessMalleation_blameless (P : Primitives) {block : CBlock} {txin : CTxIn}
    (hinput : coinbaseInput block = some txin) (expect : Bool) :
    Blameless (checkWitnessMalleation P block expect) := by
  unfold checkWitnessMalleation
  split
  · rw [checkWitnessCommitment, hinput]
    dsimp only
    split
    · exact (blameless_rejectIf _ _ _).bind fun _ => blameless_rejectIf _ _ _
    · exact .inr ⟨_, _, rfl⟩
  · exact blameless_rejectIf _ _ _

/-! ### The strings that are hashed -/

/-- The string that is hashed for a node of a merkle tree. -/
def pairBytes (p : Uint256 × Uint256) : Bytes := p.1.data ++ p.2.data

private theorem pairBytes_length (p : Uint256 × Uint256) : (pairBytes p).length = 64 := by
  rw [pairBytes, length_append, p.1.size_eq, p.2.size_eq]

private theorem pairBytes_injective : Function.Injective pairBytes := by
  intro p q h
  obtain ⟨hleft, hright⟩ := append_inj h (by rw [p.1.size_eq, q.1.size_eq])
  exact Prod.ext (Blob.ext hleft) (Blob.ext hright)

variable (P : Primitives)

/-- The leaves of the transaction tree. -/
def txids (block : CBlock) : List Uint256 := block.vtx.map fun tx => tx.getHash P

/-- The leaves of the witness tree. -/
def wtxids (block : CBlock) : List Uint256 :=
  .null 32 :: block.vtx.tail.map (getWitnessHash P)

/-- The strings that are hashed for the transactions of a block: the transactions without witnesses,
all but the coinbase with witnesses, the nodes of the two trees, and the commitments to the witness
tree. -/
def hashedBytes (block : CBlock) : List Bytes :=
  block.vtx.map (CTransaction.serialize false) ++
    block.vtx.tail.map (CTransaction.serialize true) ++
    (pairs (hashPair P) (txids P block)).map pairBytes ++
    (pairs (hashPair P) (wtxids P block)).map pairBytes ++
    (coinbaseInput block).toList.flatMap fun txin =>
      txin.scriptWitness.map fun nonce => (blockWitnessMerkleRoot P block).data ++ nonce

/-- No two of the strings that are hashed for the two blocks collide. -/
def HashInjective (b₁ b₂ : CBlock) : Prop :=
  Set.InjOn (hash P) {bs | bs ∈ hashedBytes P b₁ ∨ bs ∈ hashedBytes P b₂}

section Hashed

variable {P : Primitives} {block b₁ b₂ : CBlock} {tx : CTransaction} {p : Uint256 × Uint256}

private theorem mem_hashedBytes_tx (h : tx ∈ block.vtx) : tx.serialize false ∈
    hashedBytes P block := by
  have := mem_map_of_mem (f := serialize false) h
  simp only [hashedBytes, mem_append]
  exact .inl (.inl (.inl (.inl this)))

private theorem mem_hashedBytes_wtx (h : tx ∈ block.vtx.tail) : tx.serialize true ∈
    hashedBytes P block := by
  have := mem_map_of_mem (f := serialize true) h
  simp only [hashedBytes, mem_append]
  exact .inl (.inl (.inl (.inr this)))

private theorem mem_hashedBytes_pair (h : p ∈ pairs (hashPair P) (txids P block)) : pairBytes p ∈
    hashedBytes P block := by
  have := mem_map_of_mem (f := pairBytes) h
  simp only [hashedBytes, mem_append]
  exact .inl (.inl (.inr this))

private theorem mem_hashedBytes_wpair
    (h : p ∈ pairs (hashPair P) (wtxids P block)) : pairBytes p ∈ hashedBytes P block := by
  have := mem_map_of_mem (f := pairBytes) h
  simp only [hashedBytes, mem_append]
  exact .inl (.inr this)

private theorem mem_hashedBytes_commitment {txin : CTxIn} {nonce : Bytes}
    (hinput : coinbaseInput block = some txin) (h : nonce ∈ txin.scriptWitness) :
    (blockWitnessMerkleRoot P block).data ++ nonce ∈ hashedBytes P block := by
  simp only [hashedBytes, hinput, mem_append]
  refine .inr (mem_flatMap.mpr ⟨txin, by simp, ?_⟩)
  exact mem_map.mpr ⟨nonce, h, rfl⟩

section

variable (hinj : HashInjective P b₁ b₂)

include hinj

private theorem HashInjective.eq {x y : Bytes} (hx : x ∈ hashedBytes P b₁)
    (hy : y ∈ hashedBytes P b₂) (h : hash P x = hash P y) : x = y :=
  hinj (.inl hx) (.inr hy) h

theorem HashInjective.symm : HashInjective P b₂ b₁ :=
  hinj.mono fun _ h => h.symm

/-- Pairs of two trees do not collide if the strings that are hashed for them do not. -/
theorem HashInjective.noCollision {ps qs : List (Uint256 × Uint256)}
    (hps : ∀ p ∈ ps, pairBytes p ∈ hashedBytes P b₁)
    (hqs : ∀ q ∈ qs, pairBytes q ∈ hashedBytes P b₂) : NoCollision (hashPair P) ps qs :=
  fun p hp q hq h => pairBytes_injective (hinj.eq (hps p hp) (hqs q hq) h)

private theorem HashInjective.ne_node (h64 : ∀ tx ∈ b₁.vtx, (tx.serialize false).length ≠ 64) :
    ∀ a ∈ txids P b₁, ∀ p ∈ pairs (hashPair P) (txids P b₂), a ≠ hashPair P p.1 p.2 := by
  intro a ha p hp heq
  obtain ⟨tx, htx, rfl⟩ := mem_map.mp ha
  have hbytes := hinj.eq (mem_hashedBytes_tx htx) (mem_hashedBytes_pair hp) heq
  exact h64 tx htx (by rw [hbytes, pairBytes_length])

end

/-- What holds for elements with the same image holds along lists with the same images. -/
theorem map_eq_map_of_imp {α β γ : Type} {f : α → β} {g : α → γ} {xs ys : List α}
    (h : ∀ x ∈ xs, ∀ y ∈ ys, f x = f y → g x = g y) (heq : xs.map f = ys.map f) : xs.map g =
      ys.map g := by
  induction xs generalizing ys with
  | nil => rw [map_eq_nil_iff.mp heq.symm]
  | cons x xs ih =>
    cases ys with
    | nil => cases heq
    | cons y ys =>
      obtain ⟨hhead, htail⟩ := cons.inj heq
      have hrest := ih (fun x hx y hy => h x (mem_cons_of_mem _ hx) y (mem_cons_of_mem _ hy))
        htail
      rw [map_cons, map_cons, hrest, h x mem_cons_self y mem_cons_self hhead]

end Hashed

/-! ### Leaves with one root -/

section Leaves

variable {P : Primitives} {xs ys : List Uint256}

private theorem root_eq_of_computeMerkleRoot_eq (hxs : xs ≠ []) (hys : ys ≠ [])
    (h : (computeMerkleRoot P xs).1 = (computeMerkleRoot P ys).1) :
    (root (hashPair P) xs).1 = (root (hashPair P) ys).1 := by
  obtain ⟨_, r₁, hr₁, -⟩ := root_computes (hashPair P) hxs
  obtain ⟨_, r₂, hr₂, -⟩ := root_computes (hashPair P) hys
  simp only [computeMerkleRoot, hr₁, hr₂, Option.getD_some] at h
  rw [hr₁, hr₂, h]

/-- Of two different lists of leaves with one root, one is reported as a mutation, if the pairs that
are hashed for them do not collide and no leaf is the hash of such a pair. -/
theorem computeMerkleRoot_mutated (P : Primitives) (xs ys : List Uint256) (hxs : xs ≠ [])
    (hys : ys ≠ []) (hne : xs ≠ ys)
    (hinj : NoCollision (hashPair P) (pairs (hashPair P) xs) (pairs (hashPair P) ys))
    (hleaf : ∀ a ∈ xs ++ ys, ∀ p ∈ pairs (hashPair P) xs ++ pairs (hashPair P) ys,
      a ≠ hashPair P p.1 p.2)
    (hroot : (computeMerkleRoot P xs).1 = (computeMerkleRoot P ys).1) :
    (computeMerkleRoot P xs).2 = true ∨ (computeMerkleRoot P ys).2 = true := by
  by_contra hflags
  obtain ⟨hm, hm'⟩ := not_or.mp hflags
  refine hne (eq_of_root_eq hxs hys hinj (root_eq_of_computeMerkleRoot_eq hxs hys hroot)
    (Bool.not_eq_true _ ▸ hm) (Bool.not_eq_true _ ▸ hm') ?_ ?_)
  · exact fun a ha p hp => hleaf a (mem_append_left _ ha) p (mem_append_right _ hp)
  · exact fun a ha p hp => hleaf a (mem_append_right _ ha) p (mem_append_left _ hp)

/-- A leaf that is repeated at the end of an odd level. -/
theorem computeMerkleRoot_mutated_three :
    (computeMerkleRoot .repeating [.fill 32 1, .fill 32 2, ⟨3 :: List.replicate 31 4, rfl⟩]).2 =
      true ∨ (computeMerkleRoot .repeating [.fill 32 1, .fill 32 2, ⟨3 :: List.replicate 31 4, rfl⟩,
        ⟨3 :: List.replicate 31 4, rfl⟩]).2 = true :=
  computeMerkleRoot_mutated .repeating _ _ (by simp) (by simp) (by simp)
    (by unfold NoCollision; decide +kernel) (by decide +kernel) (by decide +kernel)

end Leaves

/-! ### Blocks with one transaction root -/

section SameRoot

variable {P : Primitives} {b₁ b₂ : CBlock} {block : CBlock}

private theorem checkMerkleRoot_spec (h : checkMerkleRoot P block = .ok ()) :
    block.header.hashMerkleRoot = (root (hashPair P) (txids P block)).1.getD (.null 32) ∧
      (root (hashPair P) (txids P block)).2 = false := by
  obtain ⟨_, hroot, hmutated⟩ := bind_eq_ok_iff.mp h
  rw [rejectIf_eq_ok_iff] at hroot hmutated
  exact ⟨bne_eq_false_iff_eq.mp hroot, hmutated⟩

/-- Blocks with the same transaction hashes differ in the witnesses only. -/
theorem strip_eq (hinj : HashInjective P b₁ b₂) (hheader : b₁.header = b₂.header)
    (hvalues : ∀ tx ∈ b₁.vtx, ∀ txout ∈ tx.vout, int64Range txout.nValue)
    (hchecked : BlockChecked b₂) (htxids : txids P b₁ = txids P b₂) : b₁.strip = b₂.strip := by
  have hmap : b₁.vtx.map strip = b₂.vtx.map strip := by
    refine map_eq_map_of_imp (fun tx htx tx' htx' heq => ?_) htxids
    have hbytes := hinj.eq (mem_hashedBytes_tx htx) (mem_hashedBytes_tx htx') heq
    -- the sizes of the one are checked, and the other has the same
    have hsize : (tx'.serialize false).length ≤ maxSize :=
      le_trans (hchecked.checked tx' htx').size (by decide)
    have hreadable : tx.Readable := by
      refine readable_of_length (hbytes ▸ hsize) (vin_length_le tx) (vout_length_le tx) ?_
      exact fun txout hout => int64Range_iff.mp (hvalues tx htx txout hout)
    have hreadable' : tx'.Readable := by
      refine readable_of_length hsize (vin_length_le tx') (vout_length_le tx') ?_
      have hrange : ∀ n : Int, 0 ≤ n ∧ n ≤ 2100000000000000 → -2 ^ 63 ≤ n ∧ n < 2 ^ 63 := by omega
      intro txout hout
      exact hrange _ (moneyRange_iff.mp ((hchecked.checked tx' htx').values txout hout))
    exact eq_of_reads (reads_transaction hreadable) (hbytes ▸ reads_transaction hreadable')
  rw [CBlock.strip, CBlock.strip, hheader, hmap]

end SameRoot

/-! ### Blocks with one witness root -/

section SameWitnessRoot

variable {P : Primitives} {b₁ b₂ : CBlock} {block : CBlock} {commitment : CTxOut}
  {tx : CTransaction} {txin : CTxIn}

/-- What a block passes that commits to its witnesses. -/
theorem checkWitnessCommitment_spec (h : checkWitnessCommitment P block commitment = .ok ()) :
    ∃ txin nonce, coinbaseInput block = some txin ∧ txin.scriptWitness = [nonce] ∧
    nonce.length = 32 ∧ (hash P ((blockWitnessMerkleRoot P block).data ++ nonce)).data =
        (commitment.scriptPubKey.drop 6).take 32 := by
  unfold checkWitnessCommitment at h
  split at h
  · cases h
  next txin hinput =>
    split at h
    next nonce hstack =>
      obtain ⟨_, hlength, hmatch⟩ := bind_eq_ok_iff.mp h
      rw [rejectIf_eq_ok_iff] at hlength hmatch
      exact ⟨txin, nonce, hinput, hstack, bne_eq_false_iff_eq.mp hlength,
        bne_eq_false_iff_eq.mp hmatch⟩
    · cases h

private theorem wtxids_eq (hinj : HashInjective P b₁ b₂) (hlength : b₁.vtx.length = b₂.vtx.length)
    (h₁ : checkWitnessCommitment P b₁ commitment = .ok ())
    (h₂ : checkWitnessCommitment P b₂ commitment = .ok ()) : wtxids P b₁ = wtxids P b₂ := by
  obtain ⟨txin₁, nonce₁, hinput₁, hstack₁, -, hhash₁⟩ := checkWitnessCommitment_spec h₁
  obtain ⟨txin₂, nonce₂, hinput₂, hstack₂, -, hhash₂⟩ := checkWitnessCommitment_spec h₂
  -- the commitments agree, hence the roots in front of the reserved values
  have hbytes := hinj.eq
    (mem_hashedBytes_commitment hinput₁ (by rw [hstack₁]; exact mem_singleton_self nonce₁))
    (mem_hashedBytes_commitment hinput₂ (by rw [hstack₂]; exact mem_singleton_self nonce₂))
    (Blob.ext (hhash₁.trans hhash₂.symm))
  have hroots := Blob.ext (append_inj hbytes (by rw [Blob.size_eq, Blob.size_eq])).1
  refine eq_of_root_eq_of_length (by simp [wtxids, hlength])
    (hinj.noCollision (fun _ => mem_hashedBytes_wpair) fun _ => mem_hashedBytes_wpair) ?_
  exact root_eq_of_computeMerkleRoot_eq (cons_ne_nil _ _) (cons_ne_nil _ _) hroots

/-- The length of a coinbase with a reserved value depends on the data without witnesses only. -/
theorem length_serialize_coinbase {nonce : Bytes}
    (hvin : tx.vin = [txin]) (hstack : txin.scriptWitness = [nonce]) (hlength : nonce.length = 32) :
    (tx.serialize true).length = (tx.serialize false).length + 36 := by
  have hwitness : tx.hasWitness := by simp [hasWitness, hvin, hstack]
  have hrecord : (serializeVector serializeBytes [nonce]).length = 34 := by
    simp [serializeVector, serializeBytes, writeCompactSize, hlength]
  have hmarker : (serializeVector CTxIn.serialize []).length = 1 := by
    simp [serializeVector, writeCompactSize]
  simp only [serialize, hwitness, hvin, hstack, Bool.and_self, Bool.false_and, if_true,
    Bool.false_eq_true, if_false, flatMap_cons, flatMap_nil,
    length_append, length_cons]
  omega

private theorem getBlockWeight_eq (block : CBlock) :
    getBlockWeight block = block.header.serialize.length +
    (writeCompactSize block.vtx.length).length +
      (block.vtx.map fun tx => (tx.serialize true).length).sum := by
  simp [getBlockWeight, witnessScaleFactor, CBlock.serialize, serializeVector, add_assoc]

/-- The sizes without witnesses are those of the block without witnesses. -/
theorem map_length_serialize_strip (block : CBlock) :
      (block.vtx.map fun tx => (tx.serialize false).length) =
        block.strip.vtx.map fun tx => (tx.serialize false).length := by
  rw [CBlock.strip, map_map]
  exact map_congr_left fun tx _ => by simp

private theorem map_length_serialize_of_no_witness
    (h : block.vtx.any CTransaction.hasWitness = false) :
    (block.vtx.map fun tx => (tx.serialize true).length) =
      block.vtx.map fun tx => (tx.serialize false).length := by
  refine map_congr_left fun tx htx => ?_
  rw [serialize_true_of_not_hasWitness (by simpa using any_eq_false.mp h tx htx)]

private theorem vin_of_coinbaseInput {rest : List CTransaction}
    (hvtx : block.vtx = tx :: rest) (hcoinbase : tx.isCoinBase)
    (hinput : coinbaseInput block = some txin) : tx.vin = [txin] := by
  obtain ⟨vin, vout, version, nLockTime⟩ := tx
  rw [coinbaseInput, hvtx] at hinput
  rcases vin with _ | ⟨txin', _ | ⟨txin'', vin⟩⟩
  · cases hcoinbase
  · rw [Option.some.inj hinput]
  · cases hcoinbase

/-- Blocks that pass the check of the witnesses and differ in the witnesses only have one weight. -/
theorem getBlockWeight_eq_of_strip_eq (hinj : HashInjective P b₁ b₂) (hstrip : b₁.strip = b₂.strip)
    (hchecked₁ : BlockChecked b₁) (hchecked₂ : BlockChecked b₂) {expect : Bool}
    (h₁ : checkWitnessMalleation P b₁ expect = .ok ())
    (h₂ : checkWitnessMalleation P b₂ expect = .ok ()) : getBlockWeight b₁ = getBlockWeight b₂ := by
  have hheader := (CBlock.mk.inj hstrip).1
  have hlength : b₁.vtx.length = b₂.vtx.length := by
    have := congrArg (fun b : CBlock => b.vtx.length) hstrip
    simpa [CBlock.strip] using this
  have hcommitment : getWitnessCommitment b₁ = getWitnessCommitment b₂ := by
    rw [← getWitnessCommitment_strip, hstrip, getWitnessCommitment_strip]
  have hstripped : (b₁.vtx.map fun tx => (tx.serialize false).length) =
      b₂.vtx.map fun tx => (tx.serialize false).length := by
    rw [map_length_serialize_strip, hstrip, ← map_length_serialize_strip]
  suffices hsizes : (b₁.vtx.map fun tx => (tx.serialize true).length) =
      b₂.vtx.map fun tx => (tx.serialize true).length by
    rw [getBlockWeight_eq, getBlockWeight_eq, hheader, hlength, hsizes]
  unfold checkWitnessMalleation at h₁ h₂
  rw [← hcommitment] at h₂
  cases hexpect : (if expect then getWitnessCommitment b₁ else none) with
  | none =>
    -- there are no witnesses at all
    rw [hexpect, rejectIf_eq_ok_iff] at h₁ h₂
    rw [map_length_serialize_of_no_witness h₁, map_length_serialize_of_no_witness h₂, hstripped]
  | some commitment =>
    rw [hexpect] at h₁ h₂
    have hwtxids := wtxids_eq hinj hlength h₁ h₂
    obtain ⟨txin₁, nonce₁, hinput₁, hstack₁, hnonce₁, -⟩ := checkWitnessCommitment_spec h₁
    obtain ⟨txin₂, nonce₂, hinput₂, hstack₂, hnonce₂, -⟩ := checkWitnessCommitment_spec h₂
    obtain ⟨tx₁, rest₁, hvtx₁, hcoinbase₁, -⟩ := hchecked₁.coinbase
    obtain ⟨tx₂, rest₂, hvtx₂, hcoinbase₂, -⟩ := hchecked₂.coinbase
    have hfirst₁ := length_serialize_coinbase (vin_of_coinbaseInput hvtx₁ hcoinbase₁ hinput₁)
      hstack₁ hnonce₁
    have hfirst₂ := length_serialize_coinbase (vin_of_coinbaseInput hvtx₂ hcoinbase₂ hinput₂)
      hstack₂ hnonce₂
    have hrest : rest₁.map (fun tx => (tx.serialize true).length) =
        rest₂.map fun tx => (tx.serialize true).length := by
      have hhashes := (cons.inj hwtxids).2
      rw [hvtx₁, hvtx₂] at hhashes
      refine map_eq_map_of_imp (fun tx htx tx' htx' heq => ?_) hhashes
      rw [getWitnessHash_eq, getWitnessHash_eq] at heq
      rw [hinj.eq (mem_hashedBytes_wtx (by rw [hvtx₁]; exact htx))
        (mem_hashedBytes_wtx (by rw [hvtx₂]; exact htx')) heq]
    rw [hvtx₁, hvtx₂, map_cons] at hstripped
    rw [hvtx₁, hvtx₂, map_cons, map_cons, hrest, hfirst₁, hfirst₂, (cons.inj hstripped).1]

end SameWitnessRoot

/-! ### The other block -/

section Other

variable {P : Primitives} {params : Params} {b₁ b₂ : CBlock} {pindexPrev : CBlockIndex}

theorem BlockChecked.coinbaseInput {block : CBlock} (h : BlockChecked block) :
    ∃ txin, coinbaseInput block = some txin := by
  obtain ⟨tx, rest, hvtx, -, -⟩ := h.coinbase
  have hne := (h.checked tx (by rw [hvtx]; exact mem_cons_self)).inputs
  obtain ⟨txin, vin, hvin⟩ := exists_cons_of_ne_nil hne
  exact ⟨txin, by rw [Validation.coinbaseInput, hvtx]; simp [hvin]⟩

variable (hinj : HashInjective P b₁ b₂) (hheader : b₁.header = b₂.header)
  (hroot : b₁.vtx = [] → b₁.header.hashMerkleRoot ≠ .null 32)
  (hvalues : ∀ tx ∈ b₁.vtx, ∀ txout ∈ tx.vout, int64Range txout.nValue)
  (h64₁ : ∀ tx ∈ b₁.vtx, (tx.serialize false).length ≠ 64)
  (h64₂ : ∀ tx ∈ b₂.vtx, (tx.serialize false).length ≠ 64)

include hinj hheader hroot hvalues h64₁ h64₂

/-- If a block is accepted, then another one with its header is accepted or mutated. -/
theorem checkAcceptBlock_blameless (h : checkAcceptBlock P params b₂ pindexPrev = .ok ()) :
    Blameless (checkAcceptBlock P params b₁ pindexPrev) := by
  obtain ⟨_, hblock, hcontext⟩ := bind_eq_ok_iff.mp h
  have hchecked₂ := checkBlock_spec hblock
  rw [checkBlock_eq] at hblock
  simp only [bind_eq_ok_iff] at hblock
  obtain ⟨_, hpow, _, hmerkle₂, hbody⟩ := hblock
  rw [contextualCheckBlock_eq] at hcontext
  simp only [bind_eq_ok_iff] at hcontext
  obtain ⟨_, hstripped, _, hwitness₂, hweight⟩ := hcontext
  -- the checks of the first block, in their order
  have hmerkle := checkMerkleRoot_blameless P b₁
  have hne₂ : txids P b₂ ≠ [] := by
    obtain ⟨tx, rest, hvtx, -, -⟩ := hchecked₂.coinbase
    simp [txids, hvtx]
  have hstripOf : checkMerkleRoot P b₁ = .ok () → b₁.strip = b₂.strip := by
    intro hmerkle₁
    obtain ⟨hroot₁, hflag₁⟩ := checkMerkleRoot_spec hmerkle₁
    obtain ⟨hroot₂, hflag₂⟩ := checkMerkleRoot_spec hmerkle₂
    -- the null root in a header is also the root of no transactions
    have hne₁ : txids P b₁ ≠ [] := fun hnil => hroot (map_eq_nil_iff.mp hnil)
      (by rw [hroot₁, hnil]; rfl)
    have hsame := root_eq_of_computeMerkleRoot_eq hne₁ hne₂ (hroot₁.symm.trans (hheader ▸ hroot₂))
    exact strip_eq hinj hheader hvalues hchecked₂ (eq_of_root_eq hne₁ hne₂
      (hinj.noCollision (fun _ => mem_hashedBytes_pair) fun _ => mem_hashedBytes_pair)
        hsame hflag₁ hflag₂
      (hinj.ne_node h64₁) (hinj.symm.ne_node h64₂))
  rw [checkAcceptBlock, checkBlock_eq, hheader, hpow]
  refine Blameless.bind (hmerkle.bind fun hmerkle₁ => ?_) fun hblock₁ => ?_
  · rw [← checkBlock_strip, hstripOf hmerkle₁, checkBlock_strip]
    exact .inl hbody
  simp only [bind_eq_ok_iff] at hblock₁
  obtain ⟨_, -, _, hmerkle₁, hbody₁⟩ := hblock₁
  have hstrip := hstripOf hmerkle₁
  have hchecked₁ := checkBlock_spec hbody₁
  obtain ⟨txin, hinput⟩ := hchecked₁.coinbaseInput
  rw [contextualCheckBlock_eq, ← contextualCheckStripped_strip, hstrip,
    contextualCheckStripped_strip, hstripped]
  refine (checkWitnessMalleation_blameless P hinput _).bind fun hwitness₁ => ?_
  rw [getBlockWeight_eq_of_strip_eq hinj hstrip hchecked₁ hchecked₂ hwitness₁ hwitness₂]
  exact .inl hweight

/-- A block that fails for good is not a changed form of a block that is accepted: of two blocks
with one header, the checks do not accept the one if they reject the other for consensus, and what
they reject although the other one is accepted they report as mutated. -/
theorem checkAcceptBlock_not_malleated : (∀ reason debug,
      checkAcceptBlock P params b₁ pindexPrev = .error (.invalid .consensus reason debug) →
      checkAcceptBlock P params b₂ pindexPrev ≠ .ok ()) ∧
    (checkAcceptBlock P params b₂ pindexPrev = .ok () →
      checkAcceptBlock P params b₁ pindexPrev = .ok () ∨
      ∃ reason debug, checkAcceptBlock P params b₁ pindexPrev =
        .error (.invalid .mutated reason debug)) := by
  have hblameless : checkAcceptBlock P params b₂ pindexPrev = .ok () →
      Blameless (checkAcceptBlock P params b₁ pindexPrev) :=
    checkAcceptBlock_blameless hinj hheader hroot hvalues h64₁ h64₂
  refine ⟨fun reason debug hconsensus hok => ?_, hblameless⟩
  rcases hblameless hok with h | ⟨_, _, h⟩ <;> cases hconsensus.symm.trans h

end Other

namespace TwoBlocks

/-- The second block with a witness on its coinbase. -/
def witnessed : CBlock :=
  { block with vtx := block.vtx.map fun tx =>
      { tx with vin := tx.vin.map fun txin => { txin with scriptWitness := [[7]] } } }

end TwoBlocks

open TwoBlocks in
/-- The second block lacks its height, whatever the witness of its coinbase is. -/
theorem checkAcceptBlock_not_malleated_witnessed : checkAcceptBlock .repeating network
    TwoBlocks.block [genesis] =
        .error (.invalid .consensus "bad-cb-height" "block height mismatch in coinbase") ∧
      checkAcceptBlock .repeating network witnessed [genesis] ≠ .ok () := by
  have hrun : checkAcceptBlock .repeating network TwoBlocks.block [genesis] =
      .error (.invalid .consensus "bad-cb-height" "block height mismatch in coinbase") := by
    decide +kernel
  have hbytes : ∀ x ∈ hashedBytes .repeating TwoBlocks.block ++ hashedBytes .repeating witnessed,
      ∀ y ∈ hashedBytes .repeating TwoBlocks.block ++ hashedBytes .repeating witnessed,
      hash .repeating x = hash .repeating y → x = y := by
    decide +kernel
  have hinj : HashInjective .repeating TwoBlocks.block witnessed := fun x hx y hy =>
    hbytes x (mem_append.mpr hx) y (mem_append.mpr hy)
  have hheader : TwoBlocks.block.header = witnessed.header := by
    decide +kernel
  exact ⟨hrun, (checkAcceptBlock_not_malleated hinj hheader (by decide +kernel) (by decide +kernel)
    (by decide +kernel) (by decide +kernel)).1 _ _ hrun⟩

namespace NullRoot

/-- A hash of the bytes from the sixth on, which is null for a coinbase: there is the hash of the
output that it does not spend. -/
def primitives : Primitives :=
  { Primitives.repeating with
    sha3_256 := fun bs => ⟨(bs.drop 5 ++ (Blob.null 32).data).take 32,
      by simp [(Blob.null 32).size_eq]⟩ }

/-- The block before. -/
def previous : CBlock := ⟨⟨256, .fill 32 1, .null 32, 0, 0x207fffff, 0⟩, []⟩

def header : CBlockHeader := ⟨256, previous.getHash primitives, .null 32, 0, 0x207fffff, 0⟩

/-- A coinbase at height one. -/
def coinbase : CTransaction :=
  ⟨[⟨⟨.null 32, COutPoint.nullIndex⟩, [0x51, 1], 0, []⟩], [⟨50 * coin, [0x6a]⟩], 1, 0⟩

end NullRoot

open NullRoot in
/-- If a coinbase hashes to null, then the block of it has the header of the block without
transactions. The one is accepted, and the other one fails for consensus, although none of the
strings that are hashed collide, those for the header included. -/
theorem checkAcceptBlock_null_root :
    let empty : CBlock := ⟨header, []⟩
    let block : CBlock := ⟨header, [NullRoot.coinbase]⟩
    let hashed := header.serialize :: (header.getHash primitives).data ::
      (hashedBytes primitives empty ++ hashedBytes primitives block)
    (∀ x ∈ hashed, ∀ y ∈ hashed, hash primitives x = hash primitives y → x = y) ∧ empty.header =
      block.header ∧ (∀ tx ∈ empty.vtx ++ block.vtx, (tx.serialize false).length ≠ 64) ∧
      (∀ tx ∈ empty.vtx ++ block.vtx, ∀ txout ∈ tx.vout, int64Range txout.nValue = true) ∧
      checkAcceptBlock primitives TwoBlocks.network empty [previous] =
        .error (.invalid .consensus "bad-blk-length" "size limits failed") ∧
      checkAcceptBlock primitives TwoBlocks.network block [previous] = .ok () := by
  refine ⟨?_, rfl, ?_, ?_, ?_, ?_⟩ <;> decide +kernel

end Tessera.Validation
