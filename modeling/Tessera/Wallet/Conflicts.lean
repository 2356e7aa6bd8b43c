import Tessera.Wallet.Balance

/-!
# Conflicts with connected blocks

When a block is connected, the wallet's other transactions that spend what a transaction of the
block spends can never confirm, and neither can their descendants. They should be in conflict with
the block from then on. `transactionRemovedFromMempool` leaves this to `blockConnected`, and
`blockConnected` never does it: it only syncs the transactions of the block. So the transactions are
in conflict after a block exactly if they were before.
-/

namespace Tessera.Wallet

open Function Lib Script Tx List Option

/-- The notifications of the chain, those about blocks with the locator that the chain has for the
block that is then the last one. -/
inductive Notification where
  | transactionAddedToMempool (tx : CTransaction)
  | transactionRemovedFromMempool (tx : CTransaction) (reason : MemPoolRemovalReason)
  | blockConnected (historical : Bool) (block : BlockInfo) (locator : Option CBlockLocator)
  | blockDisconnected (block : BlockInfo) (locator : Option CBlockLocator)

variable (P : Primitives) (isMine : CScript → Bool)

def TxStore.notify (s : TxStore) : Notification → TxStore
  | .transactionAddedToMempool tx => s.transactionAddedToMempool P isMine tx
  | .transactionRemovedFromMempool tx reason => s.transactionRemovedFromMempool P tx reason
  | .blockConnected historical block locator => s.blockConnected P isMine locator historical block
  | .blockDisconnected block locator => s.blockDisconnected P isMine locator block

/-! ### The active chain -/

def outpoints (tx : CTransaction) : List COutPoint :=
  (tx.vin.map CTxIn.prevout).filter fun o => !o.isNull

/-- The transactions of an active chain: no outpoint is spent twice, what is spent was paid by a
transaction of the chain, and identifiers do not collide. -/
structure ValidChain (txs : List CTransaction) : Prop where
  noDoubleSpend : ∀ tx ∈ txs, ∀ tx' ∈ txs, ∀ o ∈ outpoints tx, o ∈ outpoints tx' →
    tx.getHash P = tx'.getHash P
  parents : ∀ tx ∈ txs, ∀ o ∈ outpoints tx, ∃ parent ∈ txs, parent.getHash P = o.hash
  noCollision : ∀ tx ∈ txs, ∀ tx' ∈ txs, tx.getHash P = tx'.getHash P → outpoints tx = outpoints tx'

/-- The store, with the blocks of the active chain, the tip first. -/
structure ChainView where
  store : TxStore
  chain : List (List CTransaction)

namespace ChainView

def chainAfter (chain : List (List CTransaction)) : Notification → List (List CTransaction)
  | .blockConnected false block _ => block.data.getD [] :: chain
  | .blockDisconnected _ _ => chain.tail
  | _ => chain

def step (v : ChainView) (n : Notification) : ChainView :=
  ⟨v.store.notify P isMine n, chainAfter v.chain n⟩

/-- The notification is one that the chain may send: a connected block extends the chain to a valid
one, in which no identifier collides with one of the wallet, and a disconnected block is the tip. -/
def Follows (v : ChainView) : Notification → Prop
  | .blockConnected false block _ =>
    ∃ vtx, block.data = some vtx ∧ ValidChain P (vtx ++ v.chain.flatten) ∧
      ∀ tx ∈ vtx ++ v.chain.flatten, ∀ wtx, v.store.mapWallet (tx.getHash P) = some wtx →
        outpoints wtx.tx = outpoints tx
  | .blockDisconnected block _ => ∃ vtx rest, block.data = some vtx ∧ v.chain = vtx :: rest
  | _ => True

end ChainView

namespace TxStore

/-! ### Transactions in conflict -/

variable (s : TxStore)

/-- A transaction of the wallet, other than the given one, that spends an outpoint which the given
one spends. -/
def Rivals (tx : CTransaction) (id : Txid) : Prop :=
  id ≠ tx.getHash P ∧ ∃ wtx, s.mapWallet id = some wtx ∧ ∃ o ∈ outpoints wtx.tx, o ∈ outpoints tx

/-- A transaction of the wallet that spends an output of a transaction. -/
def SpendsFrom (parent child : Txid) : Prop :=
  ∃ wtx, s.mapWallet child = some wtx ∧ ∃ o ∈ outpoints wtx.tx, o.hash = parent

/-- The transactions of the wallet that can no longer confirm once the given ones have: the rivals
of one of them, and the descendants of these. -/
def CannotConfirm (vtx : List CTransaction) (id : Txid) : Prop :=
  ∃ tx ∈ vtx, ∃ root, s.Rivals P tx root ∧ Relation.ReflTransGen s.SpendsFrom root id

def MarkedConflicted (id : Txid) : Prop :=
  ∃ wtx, s.mapWallet id = some wtx ∧ wtx.isBlockConflicted = true

/-- Every transaction of the wallet that can no longer confirm is marked. -/
def AllMarked (vtx : List CTransaction) : Prop :=
  ∀ id, s.CannotConfirm P vtx id → s.MarkedConflicted id

end TxStore

namespace ChainView

/-- Right after a block is connected, every transaction of the wallet that it keeps from confirming
is marked. -/
def Marks (v : ChainView) (n : Notification) : Prop :=
  match n with
  | .blockConnected false block _ => (v.step P isMine n).store.AllMarked P (block.data.getD [])
  | _ => True

/-- The transactions of the wallet that a block keeps from confirming are marked already before it
is connected. -/
def AlreadyMarked (v : ChainView) (n : Notification) : Prop :=
  match n with
  | .blockConnected false block _ => v.store.AllMarked P (block.data.getD [])
  | _ => True

end ChainView

namespace TxStore

variable {P isMine} {s : TxStore} {vtx : List CTransaction} {id : Txid}
  {Q : Txid → CWalletTx → Prop}

private theorem allMarked_congr {s' : TxStore} (h : s.mapWallet = s'.mapWallet) :
    s.AllMarked P vtx ↔ s'.AllMarked P vtx := by
  have hspends : s.SpendsFrom = s'.SpendsFrom := by
    funext parent child
    rw [SpendsFrom, h]
    rfl
  simp only [AllMarked, CannotConfirm, Rivals, MarkedConflicted, hspends, h]

/-! ### What a connected block changes -/

variable {hash : Uint256} {height : Int}

private theorem syncBlock_other (hid : ∀ tx ∈ vtx, tx.getHash P ≠ id) (i : Nat) :
    (s.syncBlock P isMine hash height i vtx).mapWallet id = s.mapWallet id := by
  induction vtx generalizing s i with
  | nil => rfl
  | cons tx vtx ih =>
    rw [syncBlock, ih fun tx' h => hid tx' (mem_cons_of_mem tx h)]
    obtain ⟨-, heq⟩ | heq :=
      s.syncTransaction_cases P isMine tx (.confirmed hash height i)
    · rw [heq]
    · rw [heq, update_of_ne (hid tx mem_cons_self).symm]

variable (s isMine) in
private theorem syncBlock_tx (hash : Uint256) (height : Int) (id : Txid)
    (vtx : List CTransaction) (i : Nat) : (∀ wtx, s.mapWallet id = some wtx →
      ∃ wtx', (s.syncBlock P isMine hash height i vtx).mapWallet id = some wtx' ∧
      wtx'.tx = wtx.tx) ∧
    (s.mapWallet id = none → ∀ wtx', (s.syncBlock P isMine hash height i vtx).mapWallet
      id = some wtx' → wtx'.tx ∈ vtx ∧ wtx'.tx.getHash P = id) := by
  induction vtx generalizing s i with
  | nil =>
    refine ⟨fun wtx h => ⟨wtx, h, rfl⟩, fun hnone wtx' h => ?_⟩
    rw [syncBlock, hnone] at h
    cases h
  | cons tx vtx ih =>
    rw [syncBlock]
    obtain ⟨hkeep, hnew⟩ := ih (s.syncTransaction P isMine tx (.confirmed hash height i)).2 (i + 1)
    by_cases hsame : (s.syncTransaction P isMine tx (.confirmed hash height i)).2.mapWallet id =
      s.mapWallet id
    · rw [hsame] at hkeep hnew
      exact ⟨hkeep, fun h wtx' hw => ⟨mem_cons_of_mem tx (hnew h wtx' hw).1, (hnew h wtx' hw).2⟩⟩
    · obtain ⟨-, heq⟩ | heq := s.syncTransaction_cases P isMine tx (.confirmed hash height i)
      · exact absurd (by rw [heq]) hsame
      have hid : id = tx.getHash P := by
        by_contra hne
        exact hsame (by rw [heq, update_of_ne hne])
      have hself : (s.syncTransaction P isMine tx (.confirmed hash height i)).2.mapWallet id =
          some (ingest (s.mapWallet id) tx (.confirmed hash height i)).1 := by
        rw [heq, hid, update_self]
      obtain ⟨wtx', hwtx', htx'⟩ := hkeep _ hself
      rw [ingest_tx] at htx'
      refine ⟨fun wtx h => ⟨wtx', hwtx', ?_⟩, fun h wtx'' hw => ?_⟩
      · rw [htx', h]
        rfl
      rw [hwtx'] at hw
      cases hw
      rw [h] at htx'
      have htx : wtx'.tx = tx := htx'
      rw [htx]
      exact ⟨mem_cons_self, hid.symm⟩

/-! ### Marks are not lost and not made -/

private theorem syncTransaction_marked {tx : CTransaction} {state : TxState}
    (hstate : state.index ≠ 2) (h : (s.syncTransaction P isMine tx state).2.MarkedConflicted id) :
    tx.getHash P ≠ id ∧ s.MarkedConflicted id := by
  obtain ⟨wtx, hwtx, hmarked⟩ := h
  obtain ⟨hnone, heq⟩ | heq := s.syncTransaction_cases P isMine tx state
  · rw [heq] at hwtx
    refine ⟨fun hid => ?_, wtx, hwtx, hmarked⟩
    rw [← hid, hnone] at hwtx
    cases hwtx
  · rw [heq] at hwtx
    by_cases hid : id = tx.getHash P
    · rw [hid, update_self] at hwtx
      cases hwtx
      rw [CWalletTx.isBlockConflicted_iff, ingest_index] at hmarked
      exact absurd hmarked hstate
    · rw [update_of_ne hid] at hwtx
      exact ⟨fun h => hid h.symm, wtx, hwtx, hmarked⟩

private theorem syncBlock_marked {i : Nat}
    (h : (s.syncBlock P isMine hash height i vtx).MarkedConflicted id) :
    (∀ tx ∈ vtx, tx.getHash P ≠ id) ∧ s.MarkedConflicted id := by
  induction vtx generalizing s i with
  | nil => exact ⟨nofun, h⟩
  | cons tx vtx ih =>
    obtain ⟨hrest, hnext⟩ := ih h
    obtain ⟨hne, hbefore⟩ := syncTransaction_marked (by simp [TxState.index]) hnext
    exact ⟨forall_mem_cons.mpr ⟨hne, hrest⟩, hbefore⟩

/-- What ingesting a transaction and making one inactive keep of every entry, a notification keeps.
-/
theorem notify_forall (hingest : ∀ old tx state, state.index ≠ 2 →
    (∀ wtx, old = some wtx → Q (tx.getHash P) wtx) → Q (tx.getHash P) (ingest old tx state).1)
    (hremove : ∀ id wtx, Q id wtx → Q id { wtx with state := .inactive false })
    (n : Notification) (h : ∀ id wtx, s.mapWallet id = some wtx → Q id wtx) :
    ∀ id wtx, (s.notify P isMine n).mapWallet id = some wtx → Q id wtx := by
  let I : TxStore → Prop := fun s => ∀ id wtx, s.mapWallet id = some wtx → Q id wtx
  have hsync : ∀ (s : TxStore) tx (state : TxState), state.index ≠ 2 → I s →
      I (s.syncTransaction P isMine tx state).2 := by
    intro s tx state hstate hs
    obtain ⟨-, heq⟩ | heq := s.syncTransaction_cases P isMine tx state
    · rw [heq]
      exact hs
    · intro id wtx hwtx
      rw [heq] at hwtx
      exact forall_update hs (hingest _ tx state hstate (hs _)) id wtx hwtx
  have hlast : ∀ locator height hash, I (s.setLastBlockProcessed locator height hash) := by
    intro locator height hash id wtx hwtx
    rw [setLastBlockProcessed_mapWallet] at hwtx
    exact h id wtx hwtx
  cases n with
  | transactionAddedToMempool tx => exact hsync s tx .inMempool (by simp [TxState.index]) h
  | transactionRemovedFromMempool tx reason =>
    simp only [notify, transactionRemovedFromMempool]
    split
    · exact h
    split
    next wtx hwtx =>
      split
      · rw [write_mapWallet]
        exact forall_update h (hremove _ wtx (h _ wtx hwtx))
      · exact h
    · exact h
  | blockConnected historical block locator =>
    simp only [notify, blockConnected]
    split
    · exact h
    split
    · exact hlast _ _ _
    next vtx _ =>
      have hloop : ∀ (vtx : List CTransaction) (i : Nat) (s : TxStore), I s →
          I (s.syncBlock P isMine block.hash block.height i vtx) := by
        intro vtx
        induction vtx with
        | nil => exact fun _ _ hs => hs
        | cons tx vtx ih => exact fun i s hs => ih (i + 1) _ (hsync s tx _
            (by simp [TxState.index]) hs)
      exact hloop vtx 0 _ (hlast _ _ _)
  | blockDisconnected block locator =>
    simp only [notify, blockDisconnected]
    split
    · exact hlast _ _ _
    next vtx _ =>
      have hloop : ∀ (vtx : List CTransaction) (s : TxStore), I s →
          I (vtx.foldl (fun s tx => (s.syncTransaction P isMine tx (.inactive false)).2) s) := by
        intro vtx
        induction vtx with
        | nil => exact fun _ hs => hs
        | cons tx vtx ih => exact fun s hs => ih _ (hsync s tx _ (by simp [TxState.index]) hs)
      exact hloop vtx _ (hlast _ _ _)

private theorem markedConflicted_of_notify {n : Notification}
    (h : (s.notify P isMine n).MarkedConflicted id) : s.MarkedConflicted id := by
  obtain ⟨wtx, hwtx, hmarked⟩ := h
  revert hmarked
  refine notify_forall (Q := fun id wtx => wtx.isBlockConflicted → s.MarkedConflicted id)
    ?_ ?_ n ?_ id wtx hwtx
  · intro old tx state hstate _ hmarked
    rw [CWalletTx.isBlockConflicted_iff, ingest_index] at hmarked
    exact absurd hmarked hstate
  · intro id wtx _ hmarked
    cases hmarked
  · exact fun id wtx hwtx hmarked => ⟨wtx, hwtx, hmarked⟩

/-- Transactions stay under their own identifiers. -/
theorem Keyed.notify (h : s.Keyed P) (n : Notification) : (s.notify P isMine n).Keyed P := by
  apply notify_forall (Q := fun id wtx => wtx.tx.getHash P = id)
  · intro old tx state _ hold
    rw [ingest_tx]
    cases old with
    | none => rfl
    | some wtx => exact hold wtx rfl
  · exact fun id wtx hwtx => hwtx
  · exact h

/-! ### What it means to be marked -/

variable (P isMine s) in
/-- The transaction does not count: it is not in the memory pool, an output is spent only if another
transaction spends it, and none of its outputs counts towards a balance. -/
structure SetAside (id : Txid) : Prop where
  notInMempool : ∀ wtx, s.mapWallet id = some wtx → wtx.inMempool = false
  spent : ∀ o, s.isSpent o = true → ∃ id' ∈ s.mapTxSpends o, id' ≠ id ∧
    ∃ wtx, s.mapWallet id' = some wtx ∧ wtx.isLive = true
  balance : ∀ spendZeroConfChange fuel minDepth includeNonmempool outpoints counted,
    s.getBalanceLoop P isMine spendZeroConfChange fuel minDepth includeNonmempool outpoints ∅ =
      some counted → ∀ n bucket, (⟨id, n⟩, bucket) ∈ counted → bucket = none

private theorem MarkedConflicted.setAside (hkeyed : s.Keyed P) (h : s.MarkedConflicted id) :
    s.SetAside P isMine id := by
  obtain ⟨wtx, hwtx, hmarked⟩ := h
  refine ⟨fun wtx' hwtx' => ?_, fun o ho => ?_, ?_⟩
  · rw [hwtx] at hwtx'
    cases hwtx'
    refine Bool.eq_false_iff.mpr fun hmempool => ?_
    have hstate := wtx.isBlockConflicted_iff.mp hmarked
    rw [eq_of_beq hmempool] at hstate
    cases hstate
  · obtain ⟨id', hid', hlive⟩ := any_eq_true.mp ho
    cases hwtx' : s.mapWallet id' with
    | none =>
      rw [hwtx'] at hlive
      cases hlive
    | some wtx' =>
      rw [hwtx'] at hlive
      refine ⟨id', hid', fun heq => ?_, wtx', hwtx', hlive⟩
      rw [heq, hwtx] at hwtx'
      cases hwtx'
      simp [CWalletTx.isLive, hmarked] at hlive
  · intro spendZeroConfChange fuel minDepth includeNonmempool outpoints counted hloop n bucket hmem
    have hnone : s.NoneConflicted ∅ := fun id hid => absurd hid (Finset.notMem_empty id)
    exact getBalanceLoop_conflicted hkeyed hnone hloop hmem hwtx hmarked

end TxStore

namespace ChainView

open TxStore

variable {P isMine} {v : ChainView}

/-! ### A block that extends the chain -/

section Extends

variable {s : TxStore} {chain : List CTransaction} {hash : Uint256} {height : Int}
  {vtx : List CTransaction} {tx : CTransaction}

section

variable (hchain : ValidChain P (vtx ++ chain))

include hchain

private theorem outpoints_of_mem_chain
    (hagrees : ∀ tx ∈ vtx ++ chain, ∀ wtx, s.mapWallet (tx.getHash P) = some wtx →
      outpoints wtx.tx = outpoints tx) (htx : tx ∈ vtx ++ chain) {wtx : CWalletTx}
    (hwtx : (s.syncBlock P isMine hash height 0 vtx).mapWallet (tx.getHash P) = some wtx) :
    outpoints wtx.tx = outpoints tx := by
  obtain ⟨hkeep, hnew⟩ := s.syncBlock_tx (P := P) isMine hash height (tx.getHash P) vtx 0
  cases hold : s.mapWallet (tx.getHash P) with
  | none =>
    obtain ⟨hmem, hid⟩ := hnew hold wtx hwtx
    exact hchain.noCollision _ (mem_append_left chain hmem) tx htx hid
  | some old =>
    obtain ⟨wtx', hwtx', heq⟩ := hkeep old hold
    rw [hwtx] at hwtx'
    cases hwtx'
    rw [heq]
    exact hagrees tx htx old hold

section

variable (hagrees : ∀ tx ∈ vtx ++ chain, ∀ wtx, s.mapWallet (tx.getHash P) = some wtx →
  outpoints wtx.tx = outpoints tx)

include hagrees

private theorem not_mem_chain_of_cannotConfirm (htx : tx ∈ vtx) {root id : Txid}
    (hroot : (s.syncBlock P isMine hash height 0 vtx).Rivals P tx root)
    (hpath : Relation.ReflTransGen (s.syncBlock P isMine hash height 0 vtx).SpendsFrom root id) :
    ∀ tx' ∈ vtx ++ chain, tx'.getHash P ≠ id := by
  induction hpath with
  | refl =>
    intro tx' htx' hid
    obtain ⟨hne, wtx, hwtx, o, ho, hspent⟩ := hroot
    rw [← hid] at hwtx
    rw [outpoints_of_mem_chain hchain hagrees htx' hwtx] at ho
    have hsame := hchain.noDoubleSpend tx' htx' tx (mem_append_left chain htx) o ho hspent
    exact hne (hid ▸ hsame)
  | tail _ hspends ih =>
    intro tx' htx' hid
    obtain ⟨wtx, hwtx, o, ho, hparent⟩ := hspends
    rw [← hid] at hwtx
    rw [outpoints_of_mem_chain hchain hagrees htx' hwtx] at ho
    obtain ⟨parent, hmem, hhash⟩ := hchain.parents tx' htx' o ho
    exact ih parent hmem (hhash.trans hparent)

private theorem cannotConfirm_syncBlock_iff {id : Txid} :
    (s.syncBlock P isMine hash height 0 vtx).CannotConfirm P vtx id ↔ s.CannotConfirm P vtx id := by
  constructor
  · rintro ⟨tx, htx, root, hroot, hpath⟩
    -- every transaction on the way is outside of the block, so that the block left it alone
    have hsame : ∀ {id}, Relation.ReflTransGen (s.syncBlock P isMine hash height 0 vtx).SpendsFrom
        root id → (s.syncBlock P isMine hash height 0 vtx).mapWallet id = s.mapWallet id := by
      intro id hpath
      apply syncBlock_other
      intro tx' htx'
      exact not_mem_chain_of_cannotConfirm hchain hagrees htx hroot hpath tx'
        (mem_append_left chain htx')
    refine ⟨tx, htx, root, ?_, ?_⟩
    · rw [Rivals, hsame .refl] at hroot
      exact hroot
    induction hpath with
    | refl => exact .refl
    | tail hbefore hspends ih =>
      rw [SpendsFrom, hsame (hbefore.tail hspends)] at hspends
      exact ih.tail hspends
  · rintro ⟨tx, htx, root, ⟨hne, wtx, hwtx, o, ho, hspent⟩, hpath⟩
    have hkeep : ∀ id wtx, s.mapWallet id = some wtx → ∃ wtx',
        (s.syncBlock P isMine hash height 0 vtx).mapWallet id = some wtx' ∧ wtx'.tx = wtx.tx :=
      fun id => (s.syncBlock_tx (P := P) isMine hash height id vtx 0).1
    refine ⟨tx, htx, root, ?_, Relation.ReflTransGen.mono ?_ _ _ hpath⟩
    · obtain ⟨wtx', hwtx', heq⟩ := hkeep root wtx hwtx
      exact ⟨hne, wtx', hwtx', o, heq ▸ ho, hspent⟩
    · rintro parent child ⟨wtx, hwtx, o, ho, hparent⟩
      obtain ⟨wtx', hwtx', heq⟩ := hkeep child wtx hwtx
      exact ⟨wtx', hwtx', o, heq ▸ ho, hparent⟩

private theorem allMarked_syncBlock_iff :
    (s.syncBlock P isMine hash height 0 vtx).AllMarked P vtx ↔ s.AllMarked P vtx := by
  constructor
  · intro h id hid
    exact (syncBlock_marked (h id ((cannotConfirm_syncBlock_iff hchain hagrees).mpr hid))).2
  intro h id hid
  obtain ⟨tx, htx, root, hroot, hpath⟩ := hid
  have hother := not_mem_chain_of_cannotConfirm hchain hagrees htx hroot hpath
  have hmarked := h id ((cannotConfirm_syncBlock_iff hchain hagrees).mp
    ⟨tx, htx, root, hroot, hpath⟩)
  rw [MarkedConflicted, syncBlock_other fun tx' h => hother tx' (mem_append_left chain h)]
  exact hmarked

end

end

end Extends

/-- A step marks what it has to exactly if that was marked already. -/
theorem marks_iff_alreadyMarked {n : Notification} (h : v.Follows P n) :
    v.Marks P isMine n ↔ v.AlreadyMarked P n := by
  cases n with
  | blockConnected historical block locator =>
    cases historical with
    | true => exact Iff.rfl
    | false =>
      obtain ⟨vtx, hdata, hchain, hagrees⟩ := h
      have hlast := v.store.setLastBlockProcessed_mapWallet locator block.height block.hash
      simp only [Marks, AlreadyMarked, step, notify, blockConnected, hdata]
      rw [← allMarked_congr hlast]
      apply allMarked_syncBlock_iff hchain
      rwa [hlast]
  | _ => exact Iff.rfl

/-- Whenever the notifications follow a chain, every connected block leaves what it keeps from
confirming marked exactly if that was marked already before each of these blocks. No notification
marks a transaction, and what is marked does not count. -/
theorem blockConnected_marks_iff (hkeyed : v.store.Keyed P) {ns : List Notification}
    (hfollows : Meets (step P isMine) (Follows P) v ns) :
    (Meets (step P isMine) (Marks P isMine) v ns ↔ Meets (step P isMine) (AlreadyMarked P) v ns) ∧
    Along (step P isMine) (fun v' => ∀ id, v'.store.MarkedConflicted id →
      v.store.MarkedConflicted id ∧ v'.store.SetAside P isMine id) v ns := by
  refine ⟨meets_congr (fun _ _ => marks_iff_alreadyMarked) hfollows, ?_⟩
  have hinv : Along (step P isMine) (fun v' => v'.store.Keyed P ∧
      ∀ id, v'.store.MarkedConflicted id → v.store.MarkedConflicted id) v ns := by
    apply along_of_step
    · rintro v' n ⟨hkeyed', hmarked⟩
      exact ⟨hkeyed'.notify n, fun id hid => hmarked id (markedConflicted_of_notify hid)⟩
    · exact ⟨hkeyed, fun id hid => hid⟩
  refine along_mono ?_ hinv
  rintro v' ⟨hkeyed', hmarked⟩ id hid
  exact ⟨hmarked id hid, hid.setAside hkeyed'⟩

/-! ### A double spend -/

namespace DoubleSpend

/-- The wallet's own script. -/
def script : CScript := [0x51]

def coinbase (height : Nat) : CTransaction :=
  ⟨[⟨⟨.null 32, COutPoint.nullIndex⟩, [1, UInt8.ofNat height], CTxIn.sequenceFinal, []⟩],
    [⟨1000, [0x52]⟩], UInt32.ofNat (256 * height), 0⟩

/-- The chain that the wallet is attached to, with one coin that has matured. -/
def chain : List (List CTransaction) := (range 101).reverse.map fun height => [coinbase height]

/-- A transaction that pays to the wallet. -/
def funding : CTransaction :=
  ⟨[⟨⟨(coinbase 1).getHash .repeating, 0⟩, [], CTxIn.sequenceFinal, []⟩],
    [⟨1000, script⟩], 0x100, 0⟩

/-- A transaction that spends what is paid to the wallet. -/
def spending (version : UInt32) : CTransaction :=
  ⟨[⟨⟨funding.getHash .repeating, 0⟩, [], CTxIn.sequenceFinal, []⟩], [⟨900, script⟩], version, 0⟩

/-- The transaction that confirms. -/
def winner : CTransaction := spending 0x200

/-- The transaction that does not. -/
def loser : CTransaction := spending 0x300

/-- The blocks that are connected: the first one pays to the wallet, the second one holds the
winner. -/
def blockAt (height : Nat) (tx : CTransaction) : BlockInfo :=
  ⟨.fill 32 (UInt8.ofNat height), some (.fill 32 (UInt8.ofNat (height - 1))), height,
    some [coinbase height, tx]⟩

/-- The loser enters and leaves the memory pool between the two blocks. -/
def notifications : List Notification :=
  [.blockConnected false (blockAt 101 funding) none, .transactionAddedToMempool loser,
    .transactionRemovedFromMempool loser .conflict, .blockConnected false (blockAt 102 winner) none]

/-- The wallet that has seen nothing. -/
def start : ChainView := ⟨.new fun _ => true, chain⟩

private theorem mem_flatten_chain {tx : CTransaction} (h : tx ∈ chain.flatten) : ∃ height < 101,
    tx = coinbase height := by
  simpa [chain, eq_comm] using h

/-- A chain goes on with transactions that are no copies of what is there. -/
theorem validChain_append {txs : List CTransaction}
    (hspent : ∀ tx ∈ txs, ∀ tx' ∈ txs, ∀ o ∈ outpoints tx, o ∈ outpoints tx' →
      tx.getHash .repeating = tx'.getHash .repeating)
    (hparents : ∀ tx ∈ txs, ∀ o ∈ outpoints tx, ∃ parent ∈ coinbase 1 :: txs,
      parent.getHash .repeating = o.hash)
    (hsame : ∀ tx ∈ txs, ∀ tx' ∈ txs, tx.getHash .repeating = tx'.getHash .repeating →
      outpoints tx = outpoints tx')
    (hnew : ∀ tx ∈ txs, ∀ height < 101, tx.getHash .repeating ≠
      (coinbase height).getHash .repeating) :
    ValidChain .repeating (txs ++ chain.flatten) where
  noDoubleSpend tx htx tx' htx' o ho ho' := by
    obtain htx | htx := mem_append.mp htx
    · obtain htx' | htx' := mem_append.mp htx'
      · exact hspent tx htx tx' htx' o ho ho'
      · obtain ⟨height, -, rfl⟩ := mem_flatten_chain htx'
        exact (not_mem_nil ho').elim
    · obtain ⟨height, -, rfl⟩ := mem_flatten_chain htx
      exact (not_mem_nil ho).elim
  parents tx htx o ho := by
    obtain htx | htx := mem_append.mp htx
    · obtain ⟨parent, hmem, hhash⟩ := hparents tx htx o ho
      obtain rfl | hmem := mem_cons.mp hmem
      · exact ⟨_, mem_append_right _ (by simp [chain]; exact ⟨1, by decide, rfl⟩), hhash⟩
      · exact ⟨parent, mem_append_left _ hmem, hhash⟩
    · obtain ⟨height, -, rfl⟩ := mem_flatten_chain htx
      exact (not_mem_nil ho).elim
  noCollision tx htx tx' htx' hhash := by
    obtain htx | htx := mem_append.mp htx <;> obtain htx' | htx' := mem_append.mp htx'
    · exact hsame tx htx tx' htx' hhash
    · obtain ⟨height, hlt, rfl⟩ := mem_flatten_chain htx'
      exact absurd hhash (hnew tx htx height hlt)
    · obtain ⟨height, hlt, rfl⟩ := mem_flatten_chain htx
      exact absurd hhash.symm (hnew tx' htx' height hlt)
    · obtain ⟨_, -, rfl⟩ := mem_flatten_chain htx
      obtain ⟨_, -, rfl⟩ := mem_flatten_chain htx'
      rfl

private theorem validChain_funding : ValidChain .repeating
    ([coinbase 101, funding] ++ chain.flatten) :=
  validChain_append (by decide) (by decide) (by decide) (by decide +kernel)

private theorem validChain_winner :
    ValidChain .repeating ([coinbase 102, winner] ++
      ([coinbase 101, funding] :: chain).flatten) := by
  rw [flatten_cons, ← append_assoc]
  exact validChain_append (by decide) (by decide) (by decide) (by decide +kernel)

/-- The wallet's own script is the only one. -/
def ownScript (s : CScript) : Bool := s == script

/-- The wallet records nothing but the loser and what is paid to it. -/
def Records (mapWallet : Txid → Option CWalletTx) : Prop :=
  ∀ id wtx, mapWallet id = some wtx → wtx.tx.getHash .repeating = id ∧ wtx.tx ∈ [loser, funding]

theorem Records.update {mapWallet : Txid → Option CWalletTx} (h : Records mapWallet)
    (wtx : CWalletTx) (hwtx : wtx.tx ∈ [loser, funding]) :
    Records (update mapWallet (wtx.tx.getHash .repeating) (some wtx)) := by
  intro id wtx' heq
  rw [update_apply] at heq
  split at heq
  next hid =>
    obtain rfl := some.inj heq
    exact ⟨hid.symm, hwtx⟩
  · exact h id wtx' heq

/-- What is recorded does not collide with a transaction of the second block or of the chain below
it. -/
theorem Records.outpoints_eq {mapWallet : Txid → Option CWalletTx} (h : Records mapWallet) :
    ∀ tx ∈ [coinbase 102, winner] ++ ([coinbase 101, funding] :: chain).flatten, ∀ wtx,
      mapWallet (tx.getHash .repeating) = some wtx → outpoints wtx.tx = outpoints tx := by
  have hblocks : ∀ tx ∈ [coinbase 102, winner] ++ [coinbase 101, funding],
      ∀ tx' ∈ [loser, funding], tx'.getHash .repeating = tx.getHash .repeating →
        outpoints tx' = outpoints tx := by decide
  have hchain : ∀ tx' ∈ [loser, funding], ∀ height < 101,
      tx'.getHash .repeating ≠ (coinbase height).getHash .repeating := by decide +kernel
  intro tx htx wtx hwtx
  obtain ⟨hid, hmem⟩ := h _ _ hwtx
  rw [flatten_cons, ← append_assoc] at htx
  obtain htx | htx := mem_append.mp htx
  · exact hblocks tx htx _ hmem hid
  · obtain ⟨height, hlt, rfl⟩ := mem_flatten_chain htx
    exact absurd hid (hchain _ hmem height hlt)

private theorem records_none : Records fun _ => none := nofun

private theorem follows_notifications : Meets (step .repeating ownScript) (Follows .repeating) start
    notifications := by
  refine ⟨⟨_, rfl, validChain_funding, nofun⟩, trivial, trivial,
    ⟨_, rfl, validChain_winner, ?_⟩, trivial⟩
  have hfunding := records_none.update ⟨funding, .confirmed (.fill 32 101) 101 1, ∅⟩ (by simp)
  exact (hfunding.update ⟨loser, .inMempool, ∅⟩ (by simp)).outpoints_eq

/-- The second block is connected to a wallet in which the loser is marked. -/
def marked : ChainView :=
  ⟨{ TxStore.new (fun _ => true) with
      mapWallet := update (update (fun _ => none) (funding.getHash .repeating)
        (some ⟨funding, .confirmed (.fill 32 101) 101 1, ∅⟩)) (loser.getHash .repeating)
        (some ⟨loser, .blockConflicted (.fill 32 102) 102, ∅⟩) }, [coinbase 101, funding] :: chain⟩

private theorem marked_records : Records marked.store.mapWallet :=
  (records_none.update ⟨funding, .confirmed (.fill 32 101) 101 1, ∅⟩ (by simp)).update
    ⟨loser, .blockConflicted (.fill 32 102) 102, ∅⟩ (by simp)

/-- Nothing spends an output of the loser, and what pays to the wallet is no rival. -/
theorem marked_allMarked : marked.store.AllMarked .repeating [coinbase 102, winner] := by
  have hloser : marked.store.MarkedConflicted (loser.getHash .repeating) := ⟨_, rfl, rfl⟩
  have hrival : ∀ tx ∈ [coinbase 102, winner], ∀ o ∈ outpoints funding, o ∉ outpoints tx := by
    decide
  have hchild : ∀ tx ∈ [loser, funding], ∀ o ∈ outpoints tx, o.hash ≠ loser.getHash .repeating := by
    decide
  rintro id ⟨tx, htx, root, ⟨-, wtx, hwtx, o, ho, ho'⟩, hpath⟩
  obtain ⟨rfl, hmem⟩ := marked_records root wtx hwtx
  obtain htx' | htx' := mem_cons.mp hmem
  · rw [htx'] at hpath
    obtain rfl | ⟨child, ⟨wtx, hwtx, o, ho, hparent⟩, -⟩ := hpath.cases_head
    · exact hloser
    · exact absurd hparent (hchild _ (marked_records child wtx hwtx).2 o ho)
  · rw [mem_singleton.mp htx'] at ho
    exact absurd ho' (hrival tx htx o ho)

end DoubleSpend

open DoubleSpend in
/-- A block that holds the winner is connected to a wallet in which the loser is marked. -/
theorem blockConnected_marks_double_spend : Meets (step .repeating ownScript)
      (Marks .repeating ownScript) marked [.blockConnected false (blockAt 102 winner) none] := by
  have hkeyed : marked.store.Keyed .repeating := fun id wtx h => (marked_records id wtx h).1
  refine (blockConnected_marks_iff hkeyed ?_).1.mpr ⟨marked_allMarked, trivial⟩
  exact ⟨⟨_, rfl, validChain_winner, marked_records.outpoints_eq⟩, trivial⟩

open DoubleSpend in
/-- The loser enters the memory pool and leaves it for a conflict, and the block that holds the
winner is connected: the loser is still taken to be in the memory pool. -/
theorem double_spend_not_marked : Meets (step .repeating ownScript) (Follows .repeating) start
      notifications ∧
      (run (step .repeating ownScript) start notifications).store.Rivals .repeating winner
        (loser.getHash .repeating) ∧
      (∃ wtx, (run (step .repeating ownScript) start notifications).store.mapWallet
        (loser.getHash .repeating) = some wtx ∧ wtx.inMempool = true ∧ wtx.isLive = true) ∧
      ¬ Meets (step .repeating ownScript) (Marks .repeating ownScript) start notifications := by
  have hloser : (run (step .repeating ownScript) start notifications).store.mapWallet
      (loser.getHash .repeating) = some ⟨loser, .inMempool, ∅⟩ := rfl
  have hrivals : (run (step .repeating ownScript) start notifications).store.Rivals
      .repeating winner (loser.getHash .repeating) := by
    have hne : loser.getHash .repeating ≠ winner.getHash .repeating := by decide
    have hmem : (⟨funding.getHash .repeating, 0⟩ : COutPoint) ∈ outpoints loser ∧
        (⟨funding.getHash .repeating, 0⟩ : COutPoint) ∈ outpoints winner := by decide
    exact ⟨hne, _, hloser, _, hmem⟩
  refine ⟨follows_notifications, hrivals, ⟨_, hloser, rfl, rfl⟩, fun hmarks => ?_⟩
  -- the last notification is the one that should have marked the loser
  obtain ⟨-, -, -, hlast, -⟩ := hmarks
  obtain ⟨wtx, hwtx, hmarked⟩ := hlast (loser.getHash .repeating)
    ⟨winner, mem_cons_of_mem _ (mem_singleton.mpr rfl), _, hrivals, .refl⟩
  cases hloser.symm.trans hwtx
  cases hmarked

end ChainView

end Tessera.Wallet
