import Tessera.Coins.Database
import Tessera.Validation.Supply

/-!
# Replaying blocks after a flush was interrupted

`ReplayBlocks` of `validation.cpp` finishes a flush of the coins database that was interrupted: it
goes back from the old tip to the last block that both tips have in common, and forward to the new
tip. The database is then a mixture of old and new coins. The steps back and forward set some
outpoints to values of their own and leave the others alone (`IsPatch`), so that they lead to the
new coins all the same.
-/

namespace Tessera.Validation

open Function Coins Lib Lib.PartialMap Script Tx List CBlockIndex

/-! ### The code -/

/-- What the block files and the undo files hold for an entry of the block index. -/
structure BlockFiles where
  blk : CBlockIndex → Option CBlock
  rev : CBlockIndex → Option Bytes

/-- The loop of `LastCommonAncestor` over entries of the same height. That it skips entries where it
can is left out. -/
def commonAncestor : CBlockIndex → CBlockIndex → CBlockIndex
  | a :: as, b :: bs => if a :: as = b :: bs then a :: as else commonAncestor as bs
  | _, _ => []

def lastCommonAncestor (pa pb : CBlockIndex) : CBlockIndex :=
  if pb.nHeight < pa.nHeight then commonAncestor (pa.getAncestor pb.nHeight) pb
  else if pa.nHeight < pb.nHeight then commonAncestor pa (pb.getAncestor pa.nHeight)
  else commonAncestor pa pb

variable (P : Primitives)

/-- The loop of `AddCoins` if it is to check for overwriting, from an output on. -/
def addCoinsCheckingFrom {ρ : Type} (tx : CTransaction) (nHeight : Nat) :
    Nat → List CTxOut → CCoinsView → Except (Failure ρ) CCoinsView
  | _, [], view => .ok view
  | i, txout :: rest, view => do
    let view ← addCoin view (outPoint P tx i) ⟨txout, tx.isCoinBase, nHeight⟩
      (haveCoin view (outPoint P tx i))
    addCoinsCheckingFrom tx nHeight (i + 1) rest view

/-- The loop of `RollforwardBlock` over the inputs of a transaction. The coins need not be there. -/
def spendAll (tx : CTransaction) (view : CCoinsView) : CCoinsView :=
  if tx.isCoinBase then view
  else tx.vin.foldl (fun view txin => (spendCoin view txin.prevout).2) view

/-- The loop of `RollforwardBlock` over the transactions. -/
def rollforwardTransactions {ρ : Type} (nHeight : Nat) :
    List CTransaction → CCoinsView → Except (Failure ρ) CCoinsView
  | [], view => .ok view
  | tx :: rest, view => do
    let view ← addCoinsCheckingFrom P tx nHeight 0 tx.vout (spendAll tx view)
    rollforwardTransactions nHeight rest view

variable (files : BlockFiles)

/-- `RollforwardBlock`: the view afterwards, none if the block cannot be read. -/
def rollforwardBlock {ρ : Type} (pindex : CBlockIndex) (view : CCoinsView) :
    Except (Failure ρ) (Option CCoinsView) :=
  match files.blk pindex with
  | none => .ok none
  | some block => some <$> rollforwardTransactions P pindex.nHeight.toNat block.vtx view

/-- The loop of `ReplayBlocks` that rolls forward through some heights. -/
def rollforward {ρ : Type} (pindexNew : CBlockIndex) :
    List Nat → CCoinsView → Except (Failure ρ) (Option CCoinsView)
  | [], view => .ok (some view)
  | nHeight :: rest, view => do
    match ← rollforwardBlock P files (pindexNew.getAncestor nHeight) view with
    | none => return none
    | some view => rollforward pindexNew rest view

/-- The loop of `ReplayBlocks` that rolls back to the fork. The genesis block is never disconnected.
-/
def rollback (pindexFork : CBlockIndex) :
    CBlockIndex → CCoinsView → Except (Failure BlockValidationResult) (Option CCoinsView)
  | [], view => .ok (some view)
  | block :: pprev, view =>
    if block :: pprev = pindexFork then .ok (some view)
    else if pprev.isEmpty then rollback pindexFork pprev view
    else
      match files.blk (block :: pprev) with
      | none => .ok none
      | some read => do
        let (res, view) ← disconnectBlock P read pprev (files.rev (block :: pprev)) view
        if res = .failed then return none else rollback pindexFork pprev view

/-- How `ReplayBlocks` goes on: it returns at once, true or false, or it flushes its cache. -/
inductive Replay where
  | consistent
  | failed
  | flush (view : CCoinsView)

/-- `ReplayBlocks` from its fork on. -/
def replayBranches (pindexOld pindexFork pindexNew : CBlockIndex) (view : CCoinsView) :
    Except (Failure BlockValidationResult) Replay := do
  match ← rollback P files pindexFork pindexOld view with
  | none => return .failed
  | some view =>
    let nForkHeight := pindexFork.nHeight.toNat
    match ← rollforward P files pindexNew
        (List.range' (nForkHeight + 1) (pindexNew.nHeight.toNat - nForkHeight)) view with
    | none => return .failed
    | some view => return .flush { view with hashBlock := pindexNew.getBlockHash P }

/-- `ReplayBlocks` up to the flush, with the block index and the files. -/
def replayBlocks (index : Uint256 → Option CBlockIndex) (db : CCoinsViewDB) :
    Except (Failure BlockValidationResult) Replay :=
  let view : CCoinsView := ⟨db.coins, db.getBestBlock⟩
  match db.getHeadBlocks with
  | [] => .ok .consistent
  | [hashNew, hashOld] =>
    match index hashNew with
    | none => .ok .failed
    | some pindexNew =>
      if hashOld.isNull then replayBranches P files [] [] pindexNew view
      else
        match index hashOld with
        | none => .ok .failed
        | some pindexOld => do
          let pindexFork := lastCommonAncestor pindexOld pindexNew
          assertThat (!pindexFork.isEmpty) "pindexFork != nullptr"
          replayBranches P files pindexOld pindexFork pindexNew view
  | _ => .ok .failed

/-! ### The last common ancestor -/

variable {pa pb : CBlockIndex} {vout : List CTxOut} {fits : AmountRange} {block : CBlock}

private theorem commonAncestor_spec (hlen : pa.length = pb.length) :
    (∃ as, pa = as ++ commonAncestor pa pb) ∧ (∃ bs, pb = bs ++ commonAncestor pa pb) ∧
      (pa ≠ [] → pa.getLast? = pb.getLast? → commonAncestor pa pb ≠ []) := by
  induction pa generalizing pb with
  | nil =>
    obtain rfl := eq_nil_of_length_eq_zero hlen.symm
    exact ⟨⟨[], rfl⟩, ⟨[], rfl⟩, fun h => absurd rfl h⟩
  | cons a as ih =>
    cases pb with
    | nil => cases hlen
    | cons b bs =>
      obtain ⟨⟨as', has⟩, ⟨bs', hbs⟩, hne⟩ := ih (Nat.succ.inj hlen)
      rw [commonAncestor]
      split
      next heq =>
        rw [← heq]
        exact ⟨⟨[], rfl⟩, ⟨[], rfl⟩, fun _ _ => cons_ne_nil a as⟩
      next heq =>
        refine ⟨⟨a :: as', by rw [cons_append, ← has]⟩,
          ⟨b :: bs', by rw [cons_append, ← hbs]⟩, fun _ hlast => ?_⟩
        -- chains of one block with the same end are equal, so that there is more to compare
        cases as with
        | nil =>
          obtain rfl := eq_nil_of_length_eq_zero (Nat.succ.inj hlen).symm
          simp only [getLast?_singleton, Option.some.injEq] at hlast
          exact absurd (by rw [hlast]) heq
        | cons a' as =>
          cases bs with
          | nil => cases hlen
          | cons b' bs =>
            refine hne (cons_ne_nil a' as) ?_
            rwa [getLast?_cons_cons] at hlast

private theorem getAncestor_append {fork : CBlockIndex} (bs : CBlockIndex) (hfork : fork ≠ []) :
    CBlockIndex.getAncestor (bs ++ fork) (fork.length - 1 : Nat) = fork := by
  have hpos := length_pos_iff.mpr hfork
  unfold getAncestor nHeight
  rw [if_neg (by simp only [length_append]; omega)]
  have hdrop : (((bs ++ fork).length : Int) - 1 - (fork.length - 1 : Nat)).toNat = bs.length := by
    simp only [length_append]
    omega
  rw [hdrop, drop_left]

/-- An ancestor at a height is the end of the chain of that length. -/
theorem getAncestor_spec (pa : CBlockIndex) {n : Nat} (hpos : 0 < n) (hle : n ≤ pa.length) :
    (∃ as, pa = as ++ pa.getAncestor (n - 1 : Nat)) ∧
    (CBlockIndex.getAncestor pa (n - 1 : Nat)).length = n ∧
      (CBlockIndex.getAncestor pa (n - 1 : Nat)).getLast? = pa.getLast? := by
  have hsplit : pa = pa.take (pa.length - n) ++ pa.drop (pa.length - n) :=
    (take_append_drop _ _).symm
  have hlen : (pa.drop (pa.length - n)).length = n := by
    rw [length_drop]
    omega
  have hne : pa.drop (pa.length - n) ≠ [] := length_pos_iff.mp (by omega)
  have hancestor : getAncestor pa (n - 1 : Nat) = pa.drop (pa.length - n) := by
    have := getAncestor_append (pa.take (pa.length - n)) hne
    rwa [← hsplit, hlen] at this
  rw [hancestor]
  refine ⟨⟨_, hsplit⟩, hlen, ?_⟩
  rw [getLast?_drop, if_neg (by omega)]

private theorem lastCommonAncestor_spec (ha : pa ≠ []) (hb : pb ≠ [])
    (hlast : pa.getLast? = pb.getLast?) :
    lastCommonAncestor pa pb ≠ [] ∧ (∃ as, pa = as ++ lastCommonAncestor pa pb) ∧
      ∃ bs, pb = bs ++ lastCommonAncestor pa pb := by
  have hposA := length_pos_iff.mpr ha
  have hposB := length_pos_iff.mpr hb
  have hheight : ∀ p : CBlockIndex, 0 < p.length → p.nHeight = (p.length - 1 : Nat) := by
    unfold nHeight
    omega
  unfold lastCommonAncestor
  rw [hheight pa hposA, hheight pb hposB]
  split
  · -- the first chain is longer
    obtain ⟨⟨front, hsplit⟩, hlen, hend⟩ := getAncestor_spec pa hposB (by omega)
    obtain ⟨⟨as, has⟩, hbs, hne⟩ := commonAncestor_spec hlen
    refine ⟨hne (length_pos_iff.mp (by omega)) (hend.trans hlast), ⟨front ++ as, ?_⟩, hbs⟩
    rw [append_assoc, ← has]
    exact hsplit
  · split
    · obtain ⟨⟨front, hsplit⟩, hlen, hend⟩ := getAncestor_spec pb hposA (by omega)
      obtain ⟨has, ⟨bs, hbs⟩, hne⟩ := commonAncestor_spec hlen.symm
      refine ⟨hne ha (hlast.trans hend.symm), has, ⟨front ++ bs, ?_⟩⟩
      rw [append_assoc, ← hbs]
      exact hsplit
    · have hlen : pa.length = pb.length := by omega
      obtain ⟨has, hbs, hne⟩ := commonAncestor_spec hlen
      exact ⟨hne ha hlast, has, hbs⟩

/-! ### Rolling forward -/

variable {P} {files} {ρ : Type} {tx : CTransaction} {nHeight : Nat}

private theorem addCoinsCheckingFrom_spec (i : Nat) (hlen : i + vout.length ≤ 2 ^ 32)
    (hvalues : ∀ txout ∈ vout, moneyRange txout.nValue) (view : CCoinsView) :
    (addCoinsCheckingFrom P tx nHeight i vout view : Except (Failure ρ) CCoinsView) =
      .ok { view with coins := overlay (createdFrom P nHeight tx i vout) view.coins } := by
  induction vout generalizing i view with
  | nil =>
    rw [createdFrom_nil]
    rfl
  | cons txout rest ih =>
    simp only [length_cons] at hlen
    obtain ⟨hvalue, hothers⟩ := forall_mem_cons.mp hvalues
    have hi : i < 2 ^ 32 := by omega
    have hlater := createdFrom_succ_outPoint P nHeight tx hi rest
    have hadd : ∀ o coin, coin.isSpent = false →
        (addCoin view o coin (haveCoin view o) : Except (Failure ρ) _) =
        .ok (if isUnspendable coin.out.scriptPubKey then view
          else { view with coins := update view.coins o (some coin) }) := by
      intro o coin hunspent
      unfold addCoin
      cases haveCoin view o <;> simp [hunspent, apply_ite Except.ok]
    rw [addCoinsCheckingFrom, hadd _ _ (isSpent_of_value hvalue)]
    refine (ih (i + 1) (by omega) hothers _).trans ?_
    rw [createdFrom_cons P nHeight tx hi]
    split
    · -- the output makes no coin, and no other output has its outpoint
      rw [← hlater, update_eq_self]
    · rw [overlay_update hlater]

private theorem spendCoin_view (view : CCoinsView) (o : COutPoint) :
    (spendCoin view o).2 = { view with coins := update view.coins o none } := by
  cases ho : view.coins o with
  | some coin => rw [spendCoin_of_some ho]
  | none => rw [spendCoin_of_none ho, ← ho, update_eq_self]

private theorem spendAll_spec (tx : CTransaction) (view : CCoinsView) :
    spendAll tx view = { view with coins := without view.coins (spentOutPoints tx) } := by
  unfold spendAll spentOutPoints
  split
  · rw [without_nil]
  generalize tx.vin = vin
  induction vin generalizing view with
  | nil => rw [map_nil, without_nil, foldl_nil]
  | cons txin rest ih =>
    rw [foldl_cons, ih, spendCoin_view, map_cons, without_cons]

variable {vtx : List CTransaction}

/-- Rolling forward applies the transactions, whatever the view shows. -/
theorem rollforwardTransactions_spec (hvtx : ∀ tx ∈ vtx, TxChecked tx) (view : CCoinsView) :
    (rollforwardTransactions P nHeight vtx view : Except (Failure ρ) CCoinsView) =
      .ok { view with coins := applyTxs P nHeight view.coins vtx } := by
  induction vtx generalizing view with
  | nil => rfl
  | cons tx rest ih =>
    obtain ⟨htx, hothers⟩ := forall_mem_cons.mp hvtx
    rw [rollforwardTransactions, addCoinsCheckingFrom_spec 0 ((zero_add _).trans_le htx.vout_length)
      htx.values, spendAll_spec]
    exact ih hothers _

private theorem isPatch_applyTx (nHeight : Nat) (tx : CTransaction) : IsPatch fun M =>
    applyTx P nHeight M tx :=
  isPatch_overlay_without _ _

private theorem isPatch_applyTxs (nHeight : Nat) (vtx : List CTransaction) :
    IsPatch fun M => applyTxs P nHeight M vtx := by
  induction vtx with
  | nil => exact isPatch_id
  | cons tx rest ih => exact (isPatch_applyTx nHeight tx).comp ih

private theorem isPatch_undoTxs (nHeight : Nat) (txs : List (CTransaction × Option CTxUndo)) :
    IsPatch fun M => undoTxs P nHeight M txs := by
  induction txs with
  | nil => exact isPatch_id
  | cons p rest ih =>
    exact IsPatch.comp (f := fun M => undoTx P nHeight p.1 (undoCoins p.2) M)
      (isPatch_overlay_erased _ _) ih

variable {view view' : CCoinsView}

private theorem rollforward_append {pindexNew : CBlockIndex} (xs ys : List Nat)
    (h : (rollforward P files pindexNew xs view : Except (Failure ρ) (Option CCoinsView)) =
      .ok (some view')) :
    (rollforward P files pindexNew (xs ++ ys) view : Except (Failure ρ) (Option CCoinsView)) =
      rollforward P files pindexNew ys view' := by
  induction xs generalizing view with
  | nil =>
    cases h
    rfl
  | cons x xs ih =>
    obtain ⟨r, hblock, hrest⟩ := bind_eq_ok_iff.mp h
    rw [cons_append, rollforward, hblock]
    cases r with
    | none => cases hrest
    | some view₁ => exact ih hrest

/-! ### What connecting a block overwrites -/

variable {params : Params} {mode : ScriptMode}

/-- Outputs of a transaction that is not a coinbase are added where there is no coin. -/
theorem addCoinsFrom_new {i : Nat} (hcoinbase : tx.isCoinBase = false)
    (hlen : i + vout.length ≤ 2 ^ 32)
    (h : (addCoinsFrom P tx nHeight i vout view : Except (Failure ρ) CCoinsView) = .ok view') :
    ∀ o coin, createdFrom P nHeight tx i vout o = some coin → view.coins o = none := by
  induction vout generalizing i view with
  | nil =>
    intro o coin hcoin
    rw [createdFrom_nil] at hcoin
    cases hcoin
  | cons txout rest ih =>
    simp only [length_cons] at hlen
    obtain ⟨view₁, hadd, hrest⟩ := bind_eq_ok_iff.mp h
    intro o coin hcoin
    rw [createdFrom_cons P nHeight tx (by omega)] at hcoin
    by_cases ho : o = outPoint P tx i
    · subst ho
      rw [update_self] at hcoin
      split at hcoin
      · cases hcoin
      next hspendable =>
        -- the coin would have been found
        unfold addCoin at hadd
        split at hadd
        · cases hadd
        rw [hcoinbase] at hadd
        split at hadd
        · cases hadd
        next hnew =>
          simpa [haveCoin] using hnew
    · rw [update_of_ne ho] at hcoin
      have hnone := ih (by omega) hrest o coin hcoin
      rw [addCoin_eq_ok hadd] at hnone
      split at hnone
      · exact hnone
      · exact (update_of_ne ho _ _).symm.trans hnone

private theorem connectRest_createsNew {pindex : CBlockIndex}
    {s s' : Connecting} (hvtx : ∀ tx ∈ vtx, TxChecked tx)
    (hcoinbase : ∀ tx ∈ vtx, tx.isCoinBase = false)
    (h : connectRest P params fits mode pindex vtx s = .ok s') :
    CreatesNew P pindex.nHeight.toNat s.view.coins vtx := by
  induction vtx generalizing s with
  | nil => trivial
  | cons tx rest ih =>
    obtain ⟨htx, hothers⟩ := forall_mem_cons.mp hvtx
    obtain ⟨hfirst, hrest⟩ := forall_mem_cons.mp hcoinbase
    obtain ⟨s₁, hstep, hloop⟩ := bind_eq_ok_iff.mp h
    obtain ⟨_, -, hview, -⟩ := connectTransaction_spec htx hstep
    have hnext := ih hothers hrest hloop
    rw [hview] at hnext
    refine ⟨?_, hnext⟩
    -- the coins are added to those that spending the inputs has left
    simp only [connectTransaction, updateCoins, bind_eq_ok_iff] at hstep
    obtain ⟨_, -, _, -, _, -, _, ⟨⟨coins, view₁⟩, hspend, view₂, hadd, -⟩, -⟩ := hstep
    rw [spendInputsOf, if_neg (by simp [hfirst])] at hspend
    obtain ⟨-, -, -, hview₁⟩ := spendInputs_spec hspend
    have hnew := addCoinsFrom_new hfirst ((zero_add _).trans_le htx.vout_length) hadd
    rwa [hview₁, ← show spentOutPoints tx = tx.vin.map CTxIn.prevout from if_neg (by simp [hfirst])]
      at hnew

variable {pprev : CBlockIndex}

private theorem connectBlock_createsNew
    {r : CCoinsView × Option CBlockUndo} (hgenesis : block.getHash P ≠ params.hashGenesisBlock)
    (hbip30 : enforceBIP30 P params (block :: pprev))
    (h : connectBlock P params fits mode block pprev view = .ok r) :
    CreatesNew P pprev.length view.coins block.vtx := by
  simp only [connectBlock, if_neg hgenesis, connectChecked, bind_eq_ok_iff] at h
  obtain ⟨_, hcheck, _, -, _, ⟨_, -, _, hnone, s, hloop, -⟩, -⟩ := h
  have hchecked := checkBlock_spec hcheck
  obtain ⟨cb, rest, hvtx, hcoinbase, hothers⟩ := hchecked.coinbase
  have hall := hchecked.checked
  rw [rejectIf_eq_ok_iff, hbip30, Bool.true_and, overwritesOutput] at hnone
  rw [hvtx] at hall hloop hnone ⊢
  obtain ⟨htx, hrest⟩ := forall_mem_cons.mp hall
  obtain ⟨s₁, hfirst, hloop⟩ := bind_eq_ok_iff.mp hloop
  obtain ⟨_, -, hview, -⟩ := connectTransaction_spec htx hfirst
  have hnext := connectRest_createsNew hrest hothers hloop
  rw [nHeight_cons] at hview hnext
  rw [hview] at hnext
  refine ⟨fun o coin hcoin => ?_, hnext⟩
  -- the outputs of the coinbase are among those that were looked for
  have hspent : spentOutPoints cb = [] := if_pos hcoinbase
  rw [hspent, without_nil]
  obtain ⟨n, hn, rfl⟩ := created_outPoint hcoin
  rw [any_cons, Bool.or_eq_false_iff, any_eq_false] at hnone
  have := hnone.1 n (mem_range.mpr hn)
  simpa [haveCoin] using this

/-! ### Rolling back and forward along a chain -/

namespace BlockTree

variable (tree : BlockTree P params)

private theorem getLast?_eq {i j : CBlockIndex} (hi : tree.entries i) (hj : tree.entries j)
    (hne : i ≠ []) (hne' : j ≠ []) : i.getLast? = j.getLast? := by
  have hroot := tree.entries_getLast hi hne
  have hroot' := tree.entries_getLast hj hne'
  have hsame := tree.hash_inj _ _ hroot hroot' ((tree.root _ hroot).trans (tree.root _ hroot').symm)
  rw [getLast?_eq_some_getLast hne, getLast?_eq_some_getLast hne', (cons.inj hsame).1]

end BlockTree

/-- The chain before a block that is connected, and what the block does. -/
theorem Connects.uncons (h : Connects P params (block :: pprev) view') :
    ∃ view mode blockundo, Connects P params pprev view ∧
      connectBlock P params int64Range mode block pprev view = .ok (view', blockundo) := by
  cases h with
  | cons chain block_ok => exact ⟨_, _, _, chain, block_ok⟩

theorem Connects.best {chain : CBlockIndex} (h : Connects P params chain view) :
    view.hashBlock = chain.getBlockHash P := by
  cases h with
  | nil => rfl
  | cons chain block_ok =>
    obtain ⟨-, -, rfl⟩ | ⟨-, undo, -, hconnected⟩ := connectBlock_spec block_ok
    · rfl
    · exact hconnected.best'

/-- What a database needs of the block index and the files to be brought from the coins of one chain
to those of another. The hashes of blocks are not zero, BIP30 is enforced, the blocks of both chains
can be read, and the undo files hold for the blocks of the old chain what connecting them gave. -/
structure Replayable (tree : BlockTree P params) (index : Uint256 → Option CBlockIndex)
    (files : BlockFiles) (old new : CBlockIndex) : Prop where
  old_entry : old = [] ∨ tree.entries old
  new_entry : tree.entries new
  index : ∀ hash i, index hash = some i ↔ tree.entries i ∧ i.getBlockHash P = hash
  not_null : ∀ i, tree.entries i → i.getBlockHash P ≠ .null 32
  bip30 : ∀ i, tree.entries i → enforceBIP30 P params i = true
  blk : ∀ block pprev, block :: pprev <:+ old ∨ block :: pprev <:+ new →
    files.blk (block :: pprev) = some block
  rev : ∀ block pprev mode view view' blockundo, block :: pprev <:+ old →
    Connects P params pprev view →
    connectBlock P params int64Range mode block pprev view = .ok (view', some blockundo) →
    files.rev (block :: pprev) =
      some (writeBlockUndo P (CBlockIndex.getBlockHash P pprev) blockundo)

section Replayable

variable {tree : BlockTree P params} {index : Uint256 → Option CBlockIndex}
  {old new fork : CBlockIndex} {viewFork : CCoinsView} {viewOld : CCoinsView}

/-- Rolling back sets some outpoints and leaves the others alone, and leads from the coins of the
old chain to those at the fork. -/
theorem Replayable.rollback (h : Replayable tree index files old new) (hfork : fork ≠ [])
    (hviewFork : Connects P params fork viewFork) {as : CBlockIndex}
    (hsuffix : as ++ fork <:+ old) (hviewOld : Connects P params (as ++ fork) viewOld) :
    ∃ f, IsPatch f ∧ f viewOld.coins = viewFork.coins ∧ ∀ view, ∃ hash,
      rollback P files fork (as ++ fork) view = .ok (some ⟨f view.coins, hash⟩) := by
  have hentry : tree.entries (as ++ fork) := by
    obtain ⟨front, hfront⟩ := hsuffix
    rcases h.old_entry with hnil | hold
    · rw [hnil] at hfront
      exact absurd (append_eq_nil_iff.mp (append_eq_nil_iff.mp hfront).2).2 hfork
    · rw [← hfront] at hold
      exact tree.entries_append front hold fun hnil => hfork (append_eq_nil_iff.mp hnil).2
  induction as generalizing viewOld with
  | nil =>
    obtain rfl := hviewOld.unique hviewFork
    refine ⟨fun M => M, isPatch_id, rfl, fun view => ⟨view.hashBlock, ?_⟩⟩
    cases fork with
    | nil => exact absurd rfl hfork
    | cons b rest => exact if_pos rfl
  | cons a as ih =>
    have hprev : as ++ fork ≠ [] := fun hnil => hfork (append_eq_nil_iff.mp hnil).2
    have hgenesis : a.getHash P ≠ params.hashGenesisBlock :=
      fun heq => hprev ((tree.genesis_iff hentry).mp heq)
    have hlt := tree.length_lt hentry
    have hcons : Connects P params (a :: (as ++ fork)) viewOld := hviewOld
    obtain ⟨view₁, mode, blockundo, hchain, hblock⟩ := hcons.uncons
    obtain ⟨hcontra, -⟩ | ⟨-, undo, rfl, hconnected⟩ := connectBlock_spec hblock
    · exact absurd hcontra hgenesis
    have hfile := h.rev a (as ++ fork) mode view₁ viewOld undo hsuffix hchain hblock
    have hnew := connectBlock_createsNew hgenesis (h.bip30 _ hentry) hblock
    have hgood := hchain.good (le_of_lt hlt)
    obtain ⟨f, hpatch, hf, hrun⟩ := ih ((suffix_cons a _).trans hsuffix) hchain
      (tree.entries_append [a] hentry hprev)
    -- the block is undone first, and then those before it
    refine ⟨fun M => f (undoTxs P (as ++ fork).length M
      (a.vtx.zip (none :: undo.vtxundo.map some)).reverse), (isPatch_undoTxs _ _).comp hpatch, ?_,
      fun view => ?_⟩
    · rw [← hconnected.paired.2] at hnew
      dsimp only
      rw [(hconnected.applies.undo hnew true).2, hf]
    · obtain ⟨clean, hdisconnect, -⟩ := hconnected.disconnect_run hgood hlt view
      obtain ⟨hash, hrest⟩ := hrun ⟨undoTxs P (as ++ fork).length view.coins
        (a.vtx.zip (none :: undo.vtxundo.map some)).reverse, getBlockHash P (as ++ fork)⟩
      refine ⟨hash, ?_⟩
      rw [cons_append, rollback, if_neg, if_neg (by simpa using hprev),
        h.blk a (as ++ fork) (.inl hsuffix), hfile]
      · dsimp only
        rw [hdisconnect]
        change (if DisconnectResult.ofClean clean = .failed then _ else _) = _
        rw [if_neg (ofClean_ne_failed clean)]
        exact hrest
      · intro heq
        have := congrArg length heq
        simp only [length_cons, length_append] at this
        omega

variable {bs : CBlockIndex} {viewNew : CCoinsView}

/-- Rolling forward sets some outpoints and leaves the others alone, and leads from the coins at the
fork to those of the new chain. -/
theorem Replayable.rollforward (h : Replayable tree index files old new) (hfork : fork ≠ [])
    (hviewFork : Connects P params fork viewFork) (hsuffix : bs ++ fork <:+ new)
    (hviewNew : Connects P params (bs ++ fork) viewNew) :
    ∃ g, IsPatch g ∧ g viewFork.coins = viewNew.coins ∧ ∀ view, ∃ hash,
      (rollforward P files new (List.range' fork.length bs.length) view :
        Except (Failure BlockValidationResult) (Option CCoinsView)) =
          .ok (some ⟨g view.coins, hash⟩) := by
  induction bs generalizing viewNew with
  | nil =>
    obtain rfl := hviewNew.unique hviewFork
    exact ⟨fun M => M, isPatch_id, rfl, fun view => ⟨view.hashBlock, rfl⟩⟩
  | cons b bs ih =>
    have hprev : bs ++ fork ≠ [] := fun hnil => hfork (append_eq_nil_iff.mp hnil).2
    obtain ⟨front, hfront⟩ := hsuffix
    have hentry : tree.entries (b :: (bs ++ fork)) := by
      have := h.new_entry
      rw [← hfront] at this
      exact tree.entries_append front this (cons_ne_nil b _)
    have hgenesis : b.getHash P ≠ params.hashGenesisBlock :=
      fun heq => hprev ((tree.genesis_iff hentry).mp heq)
    have hcons : Connects P params (b :: (bs ++ fork)) viewNew := hviewNew
    obtain ⟨view₁, mode, blockundo, hchain, hblock⟩ := hcons.uncons
    obtain ⟨hcontra, -⟩ | ⟨-, undo, rfl, hconnected⟩ := connectBlock_spec hblock
    · exact absurd hcontra hgenesis
    obtain ⟨g, hpatch, hg, hrun⟩ := ih ((suffix_cons b _).trans ⟨front, hfront⟩) hchain
    refine ⟨fun M => applyTxs P (bs ++ fork).length (g M) b.vtx,
      hpatch.comp (isPatch_applyTxs _ _), ?_, fun view => ?_⟩
    · have happlies := hconnected.applies.eq_applyTxs
      rw [hconnected.paired.2] at happlies
      dsimp only
      rw [hg, happlies]
    · obtain ⟨hash, hfirst⟩ := hrun view
      refine ⟨hash, ?_⟩
      -- the block is the ancestor of the new tip at the last of the heights
      have hancestor : getAncestor new ((fork.length + bs.length : Nat) : Int) = b ::
          (bs ++ fork) := by
        have := getAncestor_append front (cons_ne_nil b (bs ++ fork))
        have hheight : (b :: (bs ++ fork)).length - 1 = fork.length + bs.length := by
          simp only [length_cons, length_append]
          omega
        rw [hheight] at this
        rw [← hfront]
        exact this
      rw [length_cons, range'_1_concat, rollforward_append _ _ hfirst, rollforward,
        rollforwardBlock, hancestor, h.blk b (bs ++ fork) (.inr ⟨front, hfront⟩)]
      dsimp only
      rw [nHeight_cons, rollforwardTransactions_spec hconnected.checked.checked]
      rfl

/-- A chain is connected through each of its blocks. -/
theorem Connects.of_append (h : Connects P params (bs ++ fork) view') : ∃ view,
    Connects P params fork view := by
  induction bs generalizing view' with
  | nil => exact ⟨view', h⟩
  | cons b bs ih =>
    have hcons : Connects P params (b :: (bs ++ fork)) view' := h
    obtain ⟨view, _, _, hchain, -⟩ := hcons.uncons
    exact ih hchain

/-- From the fork on, a mixture of old and new coins becomes the new coins. -/
theorem Replayable.replayBranches (h : Replayable tree index files old new) (hfork : fork ≠ [])
    (hviewFork : Connects P params fork viewFork) (hviewNew : Connects P params new viewNew)
    (hnew : new = bs ++ fork) {coins : CoinMap} {f : CoinMap → CoinMap} (hpatch : IsPatch f)
    (hf : f coins = viewFork.coins) {pindexOld pindexFork : CBlockIndex}
    (hheight : pindexFork.nHeight.toNat = fork.length - 1) {hash : Uint256}
    (hback : Validation.rollback P files pindexFork pindexOld view =
      .ok (some ⟨f view.coins, hash⟩))
    (hmixed : ∀ o, view.coins o = coins o ∨ view.coins o = viewNew.coins o) :
    replayBranches P files pindexOld pindexFork new view = .ok (.flush viewNew) := by
  have hpos := length_pos_iff.mpr hfork
  have hconnects : Connects P params (bs ++ fork) viewNew := hnew ▸ hviewNew
  obtain ⟨g, hpatch', hg, hrun⟩ := h.rollforward hfork hviewFork (hnew ▸ suffix_rfl) hconnects
  obtain ⟨hash', hforward⟩ := hrun ⟨f view.coins, hash⟩
  have hcoins : g (f view.coins) = viewNew.coins := by
    refine hpatch.of_mixture hpatch' ?_ hmixed
    rw [hf, hg]
  have hheights : range' (pindexFork.nHeight.toNat + 1)
      (new.nHeight.toNat - pindexFork.nHeight.toNat) = range' fork.length bs.length := by
    have hnewHeight : new.nHeight.toNat = bs.length + fork.length - 1 := by
      rw [hnew, nHeight, length_append]
      omega
    congr 1
    · omega
    · omega
  unfold Validation.replayBranches
  rw [hback]
  change (Validation.rollforward P files new (range' (pindexFork.nHeight.toNat + 1)
    (new.nHeight.toNat - pindexFork.nHeight.toNat)) _ >>= _) = _
  rw [hheights, hforward]
  change Except.ok (Replay.flush ⟨g (f view.coins), new.getBlockHash P⟩) = _
  rw [hcoins, ← hviewNew.best]

/-- A database that is on the way to the new chain: `ReplayBlocks` flushes the coins of that chain.
-/
theorem Replayable.replayBlocks (h : Replayable tree index files old new)
    (hviewOld : Connects P params old viewOld) (hviewNew : Connects P params new viewNew)
    {db : CCoinsViewDB} (hbetween : db.Between viewNew.hashBlock viewOld.hashBlock)
    (hmixed : ∀ o, db.coins o = viewOld.coins o ∨ db.coins o = viewNew.coins o) :
    replayBlocks P files index db = .ok (.flush viewNew) := by
  have hne : new ≠ [] := by
    intro hnil
    exact h.not_null new h.new_entry (by rw [hnil]; rfl)
  have hheads : db.getHeadBlocks = [new.getBlockHash P, old.getBlockHash P] := by
    rw [CCoinsViewDB.getHeadBlocks, hbetween.heads, hviewNew.best, hviewOld.best]
    rfl
  have hindexNew := (h.index _ _).mpr ⟨h.new_entry, rfl⟩
  unfold Validation.replayBlocks
  rw [hheads]
  dsimp only
  rw [hindexNew]
  dsimp only
  rcases h.old_entry with hnil | hold
  · -- the first flush: there were no coins, and the genesis block has none
    subst hnil
    cases hviewOld
    have hsplit := (dropLast_append_getLast hne).symm
    obtain ⟨viewRoot, hviewRoot⟩ := Connects.of_append (hsplit ▸ hviewNew)
    have hempty : viewRoot.coins = fun _ => none := by
      rw [hviewRoot.accepted.2, chainCoins,
        if_pos (tree.root _ (tree.entries_getLast h.new_entry hne))]
      rfl
    exact h.replayBranches (cons_ne_nil _ []) hviewRoot hviewNew hsplit isPatch_id hempty.symm
      rfl rfl hmixed
  · have hneOld : old ≠ [] := by
      intro hnil
      exact h.not_null old hold (by rw [hnil]; rfl)
    have hnotNull : ¬ (old.getBlockHash P).isNull := by
      rw [Blob.isNull_iff]
      exact h.not_null old hold
    have hindexOld := (h.index _ _).mpr ⟨hold, rfl⟩
    rw [if_neg hnotNull, hindexOld]
    dsimp only
    obtain ⟨hfork, ⟨as, has⟩, bs, hbs⟩ := lastCommonAncestor_spec hneOld hne
      (tree.getLast?_eq hold h.new_entry hneOld hne)
    generalize lastCommonAncestor old new = fork at hfork has hbs
    obtain ⟨viewFork, hviewFork⟩ := Connects.of_append (has ▸ hviewOld)
    obtain ⟨f, hpatch, hf, hrun⟩ := h.rollback hfork hviewFork (has ▸ suffix_rfl) (has ▸ hviewOld)
    obtain ⟨hash, hback⟩ := hrun ⟨db.coins, db.getBestBlock⟩
    rw [← has] at hback
    have hassert : (assertThat (!fork.isEmpty) "pindexFork != nullptr" :
        Except (Failure BlockValidationResult) Unit) = .ok () := by
      simpa using hfork
    rw [hassert]
    refine h.replayBranches hfork hviewFork hviewNew hbs hpatch hf ?_ hback hmixed
    rw [nHeight]
    omega

end Replayable

/-! ### Crashes and recoveries -/

section Recovery

variable (P files) (index : Uint256 → Option CBlockIndex) (db db' : CCoinsViewDB)

/-- `ReplayBlocks` is interrupted after some batches of its flush. -/
def Interrupted : Prop :=
  ∃ view batches k, replayBlocks P files index db = .ok (.flush view) ∧ db.FlushOf view batches ∧
    db' = db.afterBatches (batches.take k)

/-- `ReplayBlocks` returns true. -/
def Replayed : Prop :=
  replayBlocks P files index db = .ok .consistent ∧ db' = db ∨
    ∃ view batches, replayBlocks P files index db = .ok (.flush view) ∧ db.FlushOf view batches ∧
      db' = db.afterBatches batches

end Recovery

section Recovers

variable {tree : BlockTree P params} {index : Uint256 → Option CBlockIndex} {old new : CBlockIndex}
  {viewOld viewNew : CCoinsView} {db : CCoinsViewDB}

/-- What a database can be from the first batch of a flush on: the flush is complete, or on the way
with some coins new and the others old. -/
def Recoverable (viewOld viewNew : CCoinsView) (db : CCoinsViewDB) : Prop :=
  db.Holds viewNew ∨ db.Between viewNew.hashBlock viewOld.hashBlock ∧
    ∀ o, db.coins o = viewOld.coins o ∨ db.coins o = viewNew.coins o

private theorem Recoverable.interrupted (h : Replayable tree index files old new)
    (hviewOld : Connects P params old viewOld) (hviewNew : Connects P params new viewNew)
    (hdb : Recoverable viewOld viewNew db) {db' : CCoinsViewDB}
    (hstep : Interrupted P files index db db') : Recoverable viewOld viewNew db' := by
  obtain ⟨view, batches, k, hreplay, hflush, rfl⟩ := hstep
  rcases hdb with hholds | ⟨hbetween, hmixed⟩
  · -- a database that is consistent is not flushed
    rw [replayBlocks, hholds.heads] at hreplay
    cases hreplay
  · rw [h.replayBlocks hviewOld hviewNew hbetween hmixed] at hreplay
    obtain rfl := Replay.flush.inj (Except.ok.inj hreplay)
    -- the database has some of the new coins already
    rcases eq_zero_or_pos k with rfl | hk
    · exact .inr ⟨hbetween, hmixed⟩
    rcases CCoinsViewDB.afterBatches_cases hflush hbetween.oldTip hk with ⟨-, hholds⟩ |
      ⟨-, hbetween', hcoins⟩
    · exact .inl hholds
    refine .inr ⟨hbetween', fun o => ?_⟩
    rcases hcoins o with hsame | hnew
    · rw [hsame]
      exact hmixed o
    · exact .inr hnew

private theorem exists_list_of_mixed (hviewOld : Connects P params old viewOld)
    (hviewNew : Connects P params new viewNew) {coins : CoinMap}
    (hmixed : ∀ o, coins o = viewOld.coins o ∨ coins o = viewNew.coins o) :
    ∃ os : List COutPoint, ∀ o ∉ os, coins o = viewNew.coins o := by
  have hfin : (keys viewOld.coins ∪ keys viewNew.coins).Finite := by
    rw [hviewOld.accepted.2, hviewNew.accepted.2]
    exact hviewOld.accepted.1.counted.finite.union hviewNew.accepted.1.counted.finite
  refine ⟨hfin.toFinset.toList, fun o ho => ?_⟩
  simp only [Finset.mem_toList, Set.Finite.mem_toFinset, Set.mem_union, not_or, PartialMap.mem_keys,
    Option.not_isSome_iff_eq_none] at ho
  rcases hmixed o with hold | hnew
  · rw [hold, ho.1, ho.2]
  · exact hnew

/-- The coins of a chain are unspent. -/
theorem Connects.unspent (h : Connects P params new viewNew) : Unspent viewNew.coins := by
  intro o coin hcoin
  rw [h.accepted.2] at hcoin
  exact isSpent_of_value (h.accepted.1.counted.values o coin hcoin)

/-- A flush from the coins of one chain to those of another stops after some of its batches, in
whatever order and batches the coins are written, and so do any number of recoveries. The next
recovery that is not interrupted then leaves the database with exactly the coins of the new chain,
and marked as consistent. -/
theorem replayBlocks_recovers (h : Replayable tree index files old new)
    (hviewOld : Connects P params old viewOld) (hviewNew : Connects P params new viewNew)
    (hdb : db.Holds viewOld) {batches : List (List DbWrite)} (hflush : db.FlushOf viewNew batches)
    {k : Nat} (hk : 0 < k) {db' : CCoinsViewDB}
    (hcrashes : Relation.ReflTransGen (Interrupted P files index)
      (db.afterBatches (batches.take k)) db') : (∃ db'', Replayed P files index db' db'') ∧
      ∀ db'', Replayed P files index db' db'' → db''.Holds viewNew := by
  have hstart : Recoverable viewOld viewNew (db.afterBatches (batches.take k)) := by
    rcases CCoinsViewDB.afterBatches_cases hflush (hdb.oldTip _) hk with
      ⟨-, hholds⟩ | ⟨-, hbetween, hcoins⟩
    · exact .inl hholds
    · refine .inr ⟨hbetween, fun o => ?_⟩
      rw [← hdb.coins]
      exact hcoins o
  have hdb' : Recoverable viewOld viewNew db' := by
    induction hcrashes with
    | refl => exact hstart
    | tail _ hstep ih => exact ih.interrupted h hviewOld hviewNew hstep
  rcases hdb' with hholds | ⟨hbetween, hmixed⟩
  · have hreplay : replayBlocks P files index db' = .ok .consistent := by
      rw [replayBlocks, hholds.heads]
    refine ⟨⟨db', .inl ⟨hreplay, rfl⟩⟩, ?_⟩
    rintro db'' (⟨-, rfl⟩ | ⟨view, _, hflushes, -⟩)
    · exact hholds
    · rw [hreplay] at hflushes
      cases hflushes
  · have hreplay := h.replayBlocks hviewOld hviewNew hbetween hmixed
    have hnull : viewNew.hashBlock.isNull = false := by
      rw [← Bool.not_eq_true, Blob.isNull_iff, hviewNew.best]
      exact h.not_null new h.new_entry
    obtain ⟨os, hos⟩ := exists_list_of_mixed hviewOld hviewNew hmixed
    obtain ⟨_, -, hflush'⟩ :=
      CCoinsViewDB.exists_flushOf hos hviewNew.unspent hnull hbetween.oldTip fun _ => false
    refine ⟨⟨_, .inr ⟨viewNew, _, hreplay, hflush', rfl⟩⟩, ?_⟩
    rintro db'' (⟨hconsistent, -⟩ | ⟨view, batches'', hflushes, hflush'', rfl⟩)
    · rw [hreplay] at hconsistent
      cases hconsistent
    rw [hreplay] at hflushes
    obtain rfl := Replay.flush.inj (Except.ok.inj hflushes)
    -- after one batch more than there are, all are written
    rcases CCoinsViewDB.afterBatches_cases hflush'' hbetween.oldTip
      (Nat.succ_pos batches''.length) with ⟨-, hholds⟩ | ⟨hlt, -⟩
    · rwa [take_of_length_le (Nat.le_succ _)] at hholds
    · exact absurd hlt (Nat.not_succ_lt_self)

end Recovers

/-! ### A flush from one branch to another -/

namespace TwoBlocks

/-- The chain state with the genesis block and another block. -/
def atTip (b : CBlock) : Chainstate :=
  run (Chainstate.step .repeating network) Chainstate.init
    [.connect ⟨true, false⟩ genesis, .connect ⟨true, false⟩ b]

private theorem connects_atTip {b : CBlock} (hb : b = TwoBlocks.block ∨ b = rival) :
    Connects .repeating network [b, genesis] (atTip b).view := by
  have htip : (atTip b).tip = [b, genesis] := by
    obtain rfl | rfl := hb
    · decide +kernel
    · decide +kernel
  have hconsistent : (atTip b).Consistent tree := run_invariant (fun _ _ h hmove => h.step hmove)
    Chainstate.consistent_init ⟨admissible_moves.1, admissible_connect hb, trivial⟩
  rw [← htip]
  exact hconsistent.connects

def index (hash : Uint256) : Option CBlockIndex :=
  entries.find? fun i => i.getBlockHash .repeating = hash

/-- The block files. The record of a block with only a coinbase is empty. -/
def blockFiles : BlockFiles :=
  ⟨List.head?, fun i => some
    (writeBlockUndo .repeating (CBlockIndex.getBlockHash .repeating i.tail) ⟨[]⟩)⟩

/-- The database with the coins of the rival's branch. -/
def database : CCoinsViewDB := .consistent (atTip rival).view

private theorem holds_database : database.Holds (atTip rival).view :=
  CCoinsViewDB.holds_consistent _

private theorem replayable : Replayable tree index blockFiles [rival, genesis]
    [TwoBlocks.block, genesis] where
  old_entry := .inr (mem_cons_of_mem _ (mem_cons_of_mem _ mem_cons_self))
  new_entry := mem_cons_of_mem _ mem_cons_self
  index hash i := by
    unfold index
    constructor
    · intro h
      exact ⟨mem_of_find?_eq_some h, by simpa using find?_some h⟩
    · rintro ⟨hentry, rfl⟩
      obtain ⟨j, hj⟩ : ∃ j, entries.find?
        (fun j => j.getBlockHash .repeating = i.getBlockHash .repeating) =
          some j := Option.isSome_iff_exists.mp (find?_isSome.mpr ⟨i, hentry, by simp⟩)
      rw [hj, tree.hash_inj j i (mem_of_find?_eq_some hj) hentry (by simpa using find?_some hj)]
  not_null i h := by
    have hall : ∀ j ∈ entries, j.getBlockHash .repeating ≠ .null 32 := by decide +kernel
    exact hall i h
  bip30 i h := by
    have hall : ∀ j ∈ entries, enforceBIP30 .repeating network j = true := by decide +kernel
    exact hall i h
  blk _ _ _ := rfl
  rev b pprev mode view view' blockundo hsuffix _ hblock := by
    obtain ⟨-, hnone, -⟩ | ⟨hgenesis, undo, hundo, hconnected⟩ := connectBlock_spec hblock
    · cases hnone
    -- the genesis block has no record, and the other block only a coinbase
    obtain ⟨rfl, rfl⟩ : b = rival ∧ pprev = [genesis] := by
      obtain hfirst | hrest := suffix_cons_iff.mp hsuffix
      · exact List.cons.inj hfirst
      · obtain hfirst | hnil := suffix_cons_iff.mp hrest
        · rw [(List.cons.inj hfirst).1] at hgenesis
          exact absurd rfl hgenesis
        · cases suffix_nil.mp hnil
    obtain rfl := Option.some.inj hundo
    have hempty : blockundo = ⟨[]⟩ :=
      congrArg CBlockUndo.mk (length_eq_zero_iff.mp (Nat.succ.inj hconnected.length))
    rw [hempty]
    rfl

private theorem exists_flush : ∃ batches, database.FlushOf (atTip TwoBlocks.block).view batches ∧
    1 < batches.length := by
  have hold := connects_atTip (.inr rfl)
  have hnew := connects_atTip (.inl rfl)
  have hmixed : ∀ o, database.coins o = (atTip rival).view.coins o ∨
      database.coins o = (atTip TwoBlocks.block).view.coins o :=
    fun o => .inl (congrFun holds_database.coins o)
  obtain ⟨os, hos⟩ := exists_list_of_mixed hold hnew hmixed
  have hos' : ∀ o ∉ outPoint .repeating (coinbase [0x51]) 0 :: os,
      database.coins o = (atTip TwoBlocks.block).view.coins o :=
    fun o ho => hos o fun hmem => ho (mem_cons_of_mem _ hmem)
  obtain ⟨written, hwritten, hflush⟩ := CCoinsViewDB.exists_flushOf hos' hnew.unspent
    (by rw [hnew.best]; decide +kernel) (holds_database.oldTip _) fun _ => true
  refine ⟨_, hflush, ?_⟩
  have hmem : outPoint .repeating (coinbase [0x51]) 0 ∈ written.map Prod.fst := by
    rw [hwritten, mem_dedup]
    exact mem_cons_self
  rw [CCoinsViewDB.length_batchesFrom_full]
  have := length_pos_of_mem hmem
  rw [length_map] at this
  omega

end TwoBlocks

open TwoBlocks in
/-- A flush from one branch to another stops after the first of its batches. The database is on the
way then, and is recovered. -/
theorem replayBlocks_recovers_two_blocks : ∃ batches,
      database.FlushOf (atTip TwoBlocks.block).view batches ∧
      1 < batches.length ∧ (database.afterBatches (batches.take 1)).Between
        (TwoBlocks.block.getHash .repeating) (rival.getHash .repeating) ∧
      (∃ db', Replayed .repeating blockFiles index (database.afterBatches (batches.take 1)) db') ∧
      ∀ db', Replayed .repeating blockFiles index (database.afterBatches (batches.take 1)) db' →
        db'.Holds (atTip TwoBlocks.block).view := by
  obtain ⟨batches, hflush, hlength⟩ := exists_flush
  have hold := connects_atTip (.inr rfl)
  have hnew := connects_atTip (.inl rfl)
  have hbetween : (database.afterBatches (batches.take 1)).Between
      (TwoBlocks.block.getHash .repeating) (rival.getHash .repeating) := by
    obtain ⟨hall, -⟩ | ⟨-, hbetween, -⟩ :=
      CCoinsViewDB.afterBatches_cases hflush (holds_database.oldTip _) Nat.one_pos
    · omega
    · rwa [hold.best, hnew.best] at hbetween
  exact ⟨batches, hflush, hlength, hbetween, replayBlocks_recovers replayable hold hnew
    holds_database hflush Nat.one_pos .refl⟩

end Tessera.Validation
