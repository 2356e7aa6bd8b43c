import Tessera.Wallet.Conflicts
import Tessera.Wallet.SignTransaction

/-!
# The cache of the wallet's outputs

`m_txos` should hold exactly the outputs of the wallet's transactions that are its own. It is filled
when a transaction is recorded and when it is loaded, with what is the wallet's own at that time.
Keys that are learned later do not reach it: `RefreshAllTXOs` is never called.
-/

namespace Tessera.Wallet

open Function Lib Script Tx List

variable (P : Primitives)

structure CWallet where
  keys : KeyCore
  store : TxStore

/-- The steps that a wallet takes under its lock. Every notification is a few of them, and reloading
is the step of the keys by that name. -/
inductive WalletStep where
  | key (op : KeyOp)
  | addToWallet (tx : CTransaction) (state : TxState)
  | syncTransaction (tx : CTransaction) (state : TxState)
  | setLastBlockProcessed (locator : Option CBlockLocator) (height : Int) (hash : Uint256)
  | transactionRemovedFromMempool (tx : CTransaction) (reason : MemPoolRemovalReason)
  | removeTxs (erased : Txid → Bool) (committed : Bool) (hashes : List Txid)

namespace CWallet

/-- A wallet that has nothing, on a disk whose writes may fail. -/
def new (disk : Nat → Bool) : CWallet := ⟨.new .empty, .new disk⟩

/-- Close the wallet and load it again: the keys come before the transactions. -/
def reload (w : CWallet) : CWallet :=
  let keys := KeyCore.load P w.keys.db
  ⟨keys, TxStore.load P keys.isMine w.store.log w.store.disk w.store.attempts⟩

def step (w : CWallet) : WalletStep → CWallet
  | .key .reload => w.reload P
  | .key op => { w with keys := w.keys.step P op }
  | .addToWallet tx state => { w with store := (w.store.addToWallet P w.keys.isMine tx state).2 }
  | .syncTransaction tx state =>
    { w with store := (w.store.syncTransaction P w.keys.isMine tx state).2 }
  | .setLastBlockProcessed locator height hash =>
    { w with store := w.store.setLastBlockProcessed locator height hash }
  | .transactionRemovedFromMempool tx reason =>
    { w with store := w.store.transactionRemovedFromMempool P tx reason }
  | .removeTxs erased committed hashes =>
    { w with store := (w.store.removeTxs erased committed hashes).2 }

def stepsOf : Notification → List WalletStep
  | .transactionAddedToMempool tx => [.syncTransaction tx .inMempool]
  | .transactionRemovedFromMempool tx reason => [.transactionRemovedFromMempool tx reason]
  | .blockConnected true _ _ => []
  | .blockConnected false block locator =>
    .setLastBlockProcessed locator block.height block.hash ::
      (block.data.getD []).mapIdx fun i tx =>
        .syncTransaction tx (.confirmed block.hash block.height i)
  | .blockDisconnected block locator =>
    .setLastBlockProcessed locator (block.height - 1) (block.prevHash.getD (.null 32)) ::
      (block.data.getD []).map fun tx => .syncTransaction tx (.inactive false)

/-- A notification is a run of its steps. -/
theorem run_stepsOf (w : CWallet) (n : Notification) :
    run (step P) w (stepsOf n) = { w with store := w.store.notify P w.keys.isMine n } := by
  cases n with
  | transactionAddedToMempool tx => rfl
  | transactionRemovedFromMempool tx reason => rfl
  | blockConnected historical block locator =>
    cases historical with
    | true => rfl
    | false =>
      rw [stepsOf, run_cons, run_mapIdx (g := fun k (w : CWallet) vtx =>
        { w with store := w.store.syncBlock P w.keys.isMine block.hash block.height k vtx })
        (fun _ _ => rfl) fun _ _ _ _ => rfl]
      simp only [TxStore.notify, TxStore.blockConnected]
      cases block.data with
      | none => rfl
      | some vtx => rfl
  | blockDisconnected block locator =>
    have hloop : ∀ (vtx : List CTransaction) (w : CWallet),
        run (step P) w (vtx.map fun tx => .syncTransaction tx (.inactive false)) =
          { w with store := vtx.foldl (fun s tx =>
            (s.syncTransaction P w.keys.isMine tx (.inactive false)).2) w.store } := by
      intro vtx
      induction vtx with
      | nil => exact fun _ => rfl
      | cons tx vtx ih => exact fun w => ih _
    rw [stepsOf, run_cons, hloop]
    simp only [TxStore.notify, TxStore.blockDisconnected]
    cases block.data with
    | none => rfl
    | some vtx => rfl

end CWallet

namespace TxStore

/-! ### What the cache holds -/

variable (isMine : CScript → Bool)

/-- The output of a transaction at a position is the wallet's own. Positions are 32-bit numbers. -/
def Owns (tx : CTransaction) (n : UInt32) : Prop :=
  ∃ p ∈ tx.vout.zipIdx, UInt32.ofNat p.2 = n ∧ isMine p.1.scriptPubKey = true

/-- An outpoint is in the cache exactly if it is an output of a transaction of the wallet that is
the wallet's own. -/
def CacheExact (s : TxStore) : Prop :=
  ∀ o : COutPoint, (s.txos o).isSome = true ↔ ∃ wtx, s.mapWallet o.hash = some wtx ∧
    Owns isMine wtx.tx o.n

variable {P} {isMine : CScript → Bool} {s : TxStore} {tx : CTransaction} {record : CWalletTx}

/-- Positions wrap around only in a transaction of more than `2 ^ 32` outputs. -/
theorem owns_iff (hlen : tx.vout.length ≤ 2 ^ 32) {n : UInt32} : Owns isMine tx n ↔
    ∃ out, tx.vout[n.toNat]? = some out ∧ isMine out.scriptPubKey := by
  constructor
  · rintro ⟨⟨out, i⟩, hmem, rfl, hmine⟩
    have hget := mem_zipIdx_iff_getElem?.mp hmem
    have hlt := (List.getElem?_eq_some_iff.mp hget).choose
    refine ⟨out, ?_, hmine⟩
    rwa [UInt32.toNat_ofNat_of_lt' (by simp only [UInt32.size]; omega)]
  · rintro ⟨out, hget, hmine⟩
    exact ⟨(out, n.toNat), mem_zipIdx_iff_getElem?.mpr hget, UInt32.ofNat_toNat, hmine⟩

/-- A transaction without own outputs owns none. -/
theorem exists_owns_iff : (∃ n, Owns isMine tx n) ↔ ∃ out ∈ tx.vout, isMine out.scriptPubKey := by
  constructor
  · rintro ⟨n, ⟨out, i⟩, hmem, -, hmine⟩
    exact ⟨out, mem_of_getElem? (mem_zipIdx_iff_getElem?.mp hmem), hmine⟩
  · rintro ⟨out, hmem, hmine⟩
    obtain ⟨i, hget⟩ := mem_iff_getElem?.mp hmem
    exact ⟨UInt32.ofNat i, (out, i), mem_zipIdx_iff_getElem?.mpr hget, rfl, hmine⟩

/-- One round of `RefreshTXOsFromTx`. -/
private def cacheTxo (isMine : CScript → Bool) (id : Txid) (txos : COutPoint → Option CTxOut)
    (p : CTxOut × Nat) : COutPoint → Option CTxOut :=
  let outpoint : COutPoint := ⟨id, UInt32.ofNat p.2⟩
  if isMine p.1.scriptPubKey ∧ txos outpoint = none then update txos outpoint (some p.1)
  else txos

variable {id : Txid} {s' : TxStore} {log : List TxWrite}

private theorem cacheTxo_isSome {txos : COutPoint → Option CTxOut} {p : CTxOut × Nat}
    {o : COutPoint} : (cacheTxo isMine id txos p o).isSome ↔ (txos o).isSome ∨
      o = ⟨id, UInt32.ofNat p.2⟩ ∧ isMine p.1.scriptPubKey := by
  unfold cacheTxo
  by_cases ho : o = ⟨id, UInt32.ofNat p.2⟩
  · subst ho
    split
    next h =>
      simp [h.1]
    next h =>
      cases htxo : txos ⟨id, UInt32.ofNat p.2⟩ with
      | none => simpa [htxo] using h
      | some out => simp
  · split
    · rw [update_of_ne ho]
      simp [ho]
    · simp [ho]

/-- Refreshing the cache adds the own outputs of a transaction. -/
theorem refreshTXOsFromTx_txos (wtx : CWalletTx) (o : COutPoint) :
    ((s.refreshTXOsFromTx P isMine wtx).txos o).isSome ↔ (s.txos o).isSome ∨
      o.hash = wtx.tx.getHash P ∧ Owns isMine wtx.tx o.n := by
  have hloop : ∀ (outs : List (CTxOut × Nat)) (txos : COutPoint → Option CTxOut),
      ((outs.foldl (cacheTxo isMine (wtx.tx.getHash P)) txos) o).isSome ↔
        (txos o).isSome ∨ ∃ p ∈ outs, o = ⟨wtx.tx.getHash P, UInt32.ofNat p.2⟩ ∧
        isMine p.1.scriptPubKey := by
    intro outs
    induction outs with
    | nil => intro txos; simp
    | cons p outs ih =>
      intro txos
      rw [foldl_cons, ih, cacheTxo_isSome, exists_mem_cons_iff, or_assoc]
  refine (hloop wtx.tx.vout.zipIdx s.txos).trans (or_congr_right ?_)
  constructor
  · rintro ⟨p, hmem, rfl, hmine⟩
    exact ⟨rfl, p, hmem, rfl, hmine⟩
  · rintro ⟨hhash, p, hmem, hn, hmine⟩
    refine ⟨p, hmem, ?_, hmine⟩
    rw [hn, ← hhash]

/-! ### Transactions under their identifiers -/

/-- Every transaction is stored under its own identifier, in memory and in the database. -/
structure Filed (P : Primitives) (s : TxStore) : Prop where
  keyed : s.Keyed P
  log : ∀ id wtx, TxWrite.tx id wtx ∈ s.log → wtx.tx.getHash P = id

/-- The transactions and the cache are the same, whatever became of the states. -/
structure SameTxs (s s' : TxStore) : Prop where
  txos : s'.txos = s.txos
  txs : ∀ id, (s'.mapWallet id).map CWalletTx.tx = (s.mapWallet id).map CWalletTx.tx

theorem SameTxs.refl (s : TxStore) : s.SameTxs s := ⟨rfl, fun _ => rfl⟩

variable {s₁ s₂ s₃ : TxStore}

theorem SameTxs.trans (h : s₁.SameTxs s₂) (h' : s₂.SameTxs s₃) : s₁.SameTxs s₃ :=
  ⟨h'.txos.trans h.txos, fun id => (h'.txs id).trans (h.txs id)⟩

/-- What both of two stores have, seen from one of them. -/
theorem SameTxs.exists_iff (h : s.SameTxs s') (id : Txid) (Q : CTransaction → Prop) :
    (∃ wtx, s'.mapWallet id = some wtx ∧ Q wtx.tx) ↔ ∃ wtx, s.mapWallet id = some wtx ∧
    Q wtx.tx := by
  have hmap : ∀ s : TxStore, (∃ wtx, s.mapWallet id = some wtx ∧ Q wtx.tx) ↔
      ∃ tx, (s.mapWallet id).map CWalletTx.tx = some tx ∧ Q tx := by
    intro s
    cases s.mapWallet id with
    | none => simp
    | some wtx => simp
  rw [hmap, hmap, h.txs]

private theorem SameTxs.cacheExact_iff (h : s.SameTxs s') : s'.CacheExact isMine ↔
    s.CacheExact isMine := by
  refine forall_congr' fun o => ?_
  rw [h.txos, h.exists_iff o.hash fun tx => Owns isMine tx o.n]

private theorem Keyed.of_sameTxs (hkeyed : s.Keyed P) (h : s.SameTxs s') : s'.Keyed P := by
  intro id wtx hwtx
  by_contra hne
  obtain ⟨wtx', hwtx', hne'⟩ :=
    (h.exists_iff id fun tx => tx.getHash P ≠ id).mp ⟨wtx, hwtx, hne⟩
  exact hne' (hkeyed id wtx' hwtx')

/-- Only the states of transactions changed, with what is written of them. -/
structure Restates (P : Primitives) (s s' : TxStore) : Prop where
  same : s.SameTxs s'
  filed : s.Filed P → s'.Filed P

theorem Restates.refl (s : TxStore) : Restates P s s := ⟨.refl s, id⟩

theorem Restates.trans (h : Restates P s₁ s₂) (h' : Restates P s₂ s₃) : Restates P s₁ s₃ :=
  ⟨h.same.trans h'.same, fun hfiled => h'.filed (h.filed hfiled)⟩

/-! ### Writes -/

@[simp] theorem write_txos (w : TxWrite) : (s.write w).2.txos = s.txos := by
  unfold write
  split <;> rfl

private theorem mem_write_log {w w' : TxWrite} (h : w' ∈ (s.write w).2.log) : w' ∈
    s.log ∨ w' = w := by
  unfold write at h
  split at h
  · simpa using h
  · exact .inl h

/-- A record under its own identifier may be written. -/
theorem Filed.write (h : s.Filed P) {w : TxWrite}
    (hw : ∀ id wtx, w = .tx id wtx → wtx.tx.getHash P = id) : (s.write w).2.Filed P where
  keyed := by
    intro id wtx hwtx
    rw [write_mapWallet] at hwtx
    exact h.keyed id wtx hwtx
  log id wtx hmem := (mem_write_log hmem).elim (h.log id wtx) fun heq => hw id wtx heq.symm

private theorem setEntry_spec {wtx wtx' : CWalletTx} (hwtx : s.mapWallet id = some wtx)
    (htx : wtx'.tx = wtx.tx) :
    Restates P s ({ s with mapWallet := update s.mapWallet id (some wtx') }.write
      (.tx id wtx')).2 := by
  have hsame : s.SameTxs { s with mapWallet := update s.mapWallet id (some wtx') } := by
    refine ⟨rfl, fun id' => ?_⟩
    by_cases hid : id' = id
    · subst hid
      simp [hwtx, htx]
    · simp [hid]
  refine ⟨⟨(write_txos _).trans hsame.txos, fun id' => ?_⟩, fun h => ?_⟩
  · rw [write_mapWallet]
    exact hsame.txs id'
  have hkeyed := h.keyed.of_sameTxs hsame
  refine Filed.write ⟨hkeyed, h.log⟩ fun id' wtx'' heq => ?_
  cases heq
  exact hkeyed id wtx' (update_self _ _ _)

/-! ### Recording -/

variable (P isMine s) in
/-- What `AddToWallet` leaves in the cache and writes: it adds the own outputs of the transaction if
it gets past the write. -/
theorem addToWallet_spec (tx : CTransaction) (state : TxState) :
    ∃ wtx, (s.addToWallet P isMine tx state).2.mapWallet = update s.mapWallet
      (tx.getHash P) (some wtx) ∧ wtx.tx = ((s.mapWallet (tx.getHash P)).map CWalletTx.tx).getD tx ∧
      (∀ o, ((s.addToWallet P isMine tx state).2.txos o).isSome ↔
        (s.txos o).isSome ∨ (s.addToWallet P isMine tx state).1 ∧
          o.hash = wtx.tx.getHash P ∧ Owns isMine wtx.tx o.n) ∧
      ∀ w ∈ (s.addToWallet P isMine tx state).2.log, w ∈ s.log ∨ w = .tx (tx.getHash P) wtx := by
  refine ⟨_, addToWallet_mapWallet s tx state, ingest_tx _ _ _, ?_⟩
  obtain ⟨s₁, written, -, htxos, hold, hwritten, heq⟩ := s.addToWallet_cases P isMine tx state
  generalize (ingest (s.mapWallet (tx.getHash P)) tx state).1 = wtx at hwritten heq ⊢
  have hlog : written.2.txos = s.txos ∧ ∀ w ∈ written.2.log, w ∈ s.log ∨
      w = .tx (tx.getHash P) wtx := by
    rw [← htxos, ← hold]
    obtain rfl | rfl := hwritten
    · exact ⟨rfl, fun w hw => .inl hw⟩
    · exact ⟨write_txos _, fun w hw => mem_write_log hw⟩
  rw [heq]
  dsimp only
  cases hok : written.1 with
  | false => simpa [hlog.1] using hlog.2
  | true =>
    refine ⟨fun o => ?_, hlog.2⟩
    rw [if_pos rfl, refreshTXOsFromTx_txos, hlog.1]
    simp

private theorem getHash_getD (hkeyed : s.Keyed P) (tx : CTransaction) :
    (((s.mapWallet (tx.getHash P)).map CWalletTx.tx).getD tx).getHash P = tx.getHash P := by
  cases hold : s.mapWallet (tx.getHash P) with
  | none => rfl
  | some wtx => exact hkeyed _ wtx hold

theorem Filed.addToWallet (h : s.Filed P) (tx : CTransaction) (state : TxState) :
    (s.addToWallet P isMine tx state).2.Filed P := by
  obtain ⟨wtx, hmap, htx, -, hlog⟩ := addToWallet_spec P isMine s tx state
  have hhash : wtx.tx.getHash P = tx.getHash P := by
    rw [htx]
    exact getHash_getD h.keyed tx
  constructor
  · rw [Keyed, hmap]
    exact forall_update h.keyed hhash
  · intro id wtx' hmem
    obtain hold | heq := hlog _ hmem
    · exact h.log id wtx' hold
    · cases heq
      exact hhash

/-- The next write to the database goes through, or the transaction is recorded already, or nothing
of it is the wallet's own. -/
def RecordsCleanly (P : Primitives) (isMine : CScript → Bool) (s : TxStore)
    (tx : CTransaction) : Prop :=
  s.disk s.attempts = true ∨ (s.mapWallet (tx.getHash P)).isSome = true ∨
    ∀ out ∈ tx.vout, isMine out.scriptPubKey = false

private theorem addToWallet_fst (hnew : s.mapWallet (tx.getHash P) = none) (state : TxState) :
    (s.addToWallet P isMine tx state).1 = s.disk s.attempts := by
  have hwrite : (ingest none tx state).2 = true := by
    unfold ingest
    dsimp only
    split <;> rfl
  obtain ⟨spends, hspends⟩ := s.addToSpends_frame (P := P) (ingest none tx state).1
  simp only [addToWallet, hnew, hwrite, Option.isNone_none, if_true, hspends, write]
  split
  next hdisk => exact hdisk.symm
  next hdisk => exact (Bool.eq_false_iff.mpr hdisk).symm

private theorem CacheExact.addToWallet_of_recorded (hfiled : s.Filed P) (h : s.CacheExact isMine)
    {old : CWalletTx} (hold : s.mapWallet (tx.getHash P) = some old) (state : TxState) :
    (s.addToWallet P isMine tx state).2.CacheExact isMine := by
  obtain ⟨wtx, hmap, htx, htxos, -⟩ := addToWallet_spec P isMine s tx state
  rw [hold] at htx
  have hhash : wtx.tx.getHash P = tx.getHash P := by
    rw [htx]
    exact hfiled.keyed _ old hold
  intro o
  rw [htxos, hmap, hhash, h o]
  by_cases ho : o.hash = tx.getHash P
  · rw [ho, hold, update_self]
    simp only [Option.some.injEq, exists_eq_left', htx, Option.map_some, Option.getD_some]
    tauto
  · rw [update_of_ne ho]
    simp [ho]

private theorem CacheExact.addToWallet_iff_of_new (h : s.CacheExact isMine)
    (hnew : s.mapWallet (tx.getHash P) = none) (state : TxState) :
    (s.addToWallet P isMine tx state).2.CacheExact isMine ↔
      s.disk s.attempts ∨ ∀ n, ¬ Owns isMine tx n := by
  obtain ⟨wtx, hmap, htx, htxos, -⟩ := addToWallet_spec P isMine s tx state
  rw [hnew] at htx
  have hat : ∀ o : COutPoint, (((s.addToWallet P isMine tx state).2.txos o).isSome ↔
      ∃ wtx', (s.addToWallet P isMine tx state).2.mapWallet o.hash = some wtx' ∧
        Owns isMine wtx'.tx o.n) ↔
      (o.hash = tx.getHash P → s.disk s.attempts ∨ ¬ Owns isMine tx o.n) := by
    intro o
    rw [htxos, hmap, h o, addToWallet_fst hnew, htx]
    by_cases ho : o.hash = tx.getHash P
    · rw [ho, hnew, update_self]
      simp only [Option.some.injEq, exists_eq_left', htx, Option.map_none, Option.getD_none]
      simp only [reduceCtorEq, false_and, exists_false, true_and, false_or, forall_const]
      tauto
    · rw [update_of_ne ho]
      simp [ho]
  constructor
  · intro hexact
    exact or_iff_not_imp_left.mpr fun hdisk n =>
      ((hat ⟨tx.getHash P, n⟩).mp (hexact _) rfl).resolve_left hdisk
  · exact fun hclean o => (hat o).mpr fun _ => hclean.imp_right fun hnone => hnone o.n

/-- The cache stays exact when a transaction is recorded exactly if it is recorded cleanly. -/
theorem addToWallet_cacheExact_iff (hfiled : s.Filed P) (h : s.CacheExact isMine)
    (tx : CTransaction) (state : TxState) : (s.addToWallet P isMine tx state).2.CacheExact isMine ↔
      s.RecordsCleanly P isMine tx := by
  unfold RecordsCleanly
  cases hold : s.mapWallet (tx.getHash P) with
  | some old => exact iff_of_true (h.addToWallet_of_recorded hfiled hold state) (.inr (.inl rfl))
  | none =>
    rw [h.addToWallet_iff_of_new hold state]
    have hnone : (∀ n, ¬ Owns isMine tx n) ↔ ∀ out ∈ tx.vout, isMine out.scriptPubKey = false := by
      rw [← not_exists, exists_owns_iff]
      simp
    simp [hnone]

private theorem not_mine_of_involvesMe (h : s.involvesMe isMine tx = false) :
    ∀ out ∈ tx.vout, isMine out.scriptPubKey = false := by
  simp only [involvesMe, Bool.or_eq_false_iff, any_eq_false] at h
  exact fun out hout => by simpa using h.1 out hout

theorem Filed.syncTransaction (h : s.Filed P) (tx : CTransaction) (state : TxState) :
    (s.syncTransaction P isMine tx state).2.Filed P := by
  obtain ⟨-, -, heq⟩ | ⟨-, heq⟩ := s.syncTransaction_eq P isMine tx state
  · rw [heq]
    exact h
  · rw [heq]
    exact h.addToWallet tx state

/-! ### The other steps -/

private theorem setLastBlockProcessed_spec (locator : Option CBlockLocator) (height : Int)
    (hash : Uint256) : Restates P s (s.setLastBlockProcessed locator height hash) := by
  refine ⟨⟨?_, fun id => by rw [setLastBlockProcessed_mapWallet]⟩, fun h => ?_⟩
  · unfold setLastBlockProcessed
    split
    · rfl
    split
    · split
      · rfl
      · exact write_txos _
    · rfl
  · have hs : Filed P { s with lastBlockProcessedHeight := height, lastBlockProcessed := hash } :=
      ⟨h.keyed, h.log⟩
    unfold setLastBlockProcessed
    split
    · exact hs
    split
    · split
      · exact hs
      · exact hs.write fun id wtx heq => by cases heq
    · exact hs

private theorem transactionRemovedFromMempool_spec (tx : CTransaction)
    (reason : MemPoolRemovalReason) :
    Restates P s (s.transactionRemovedFromMempool P tx reason) := by
  unfold transactionRemovedFromMempool
  split
  · exact .refl s
  dsimp only
  split
  next wtx hwtx =>
    split
    · exact setEntry_spec hwtx rfl
    · exact .refl s
  · exact .refl s

private theorem foldl_clear {hash : Txid} (indices : List Nat) (txos : COutPoint → Option CTxOut)
    (o : COutPoint) : ((indices.foldl (fun (txos : COutPoint → Option CTxOut) i =>
        update txos ⟨hash, UInt32.ofNat i⟩ none) txos) o).isSome ↔
      (txos o).isSome ∧ ∀ i ∈ indices, o ≠ ⟨hash, UInt32.ofNat i⟩ := by
  induction indices generalizing txos with
  | nil => simp
  | cons i indices ih =>
    rw [foldl_cons, ih]
    by_cases ho : o = ⟨hash, UInt32.ofNat i⟩
    · subst ho
      simp
    · rw [update_of_ne ho]
      simp [ho]

/-- Forgetting a transaction forgets its outputs. -/
theorem CacheExact.forget (h : s.CacheExact isMine) (hash : Txid) :
    (s.forget hash).CacheExact isMine := by
  unfold TxStore.forget
  split
  · exact h
  rename_i wtx hwtx
  intro o
  dsimp only
  rw [foldl_clear, h o]
  by_cases ho : o.hash = hash
  · subst ho
    rw [update_self]
    simp only [reduceCtorEq, false_and, exists_false, iff_false, not_and]
    rintro ⟨wtx', hwtx', ⟨out, i⟩, hmem, hn, -⟩ hkept
    cases hwtx.symm.trans hwtx'
    have hlt := (List.getElem?_eq_some_iff.mp (mem_zipIdx_iff_getElem?.mp hmem)).choose
    refine hkept i (mem_range.mpr hlt) ?_
    rw [hn]
  · rw [update_of_ne ho]
    refine and_iff_left fun i _ heq => ho ?_
    rw [heq]

theorem Filed.forget (h : s.Filed P) (hash : Txid) : (s.forget hash).Filed P := by
  unfold TxStore.forget
  split
  · exact h
  refine ⟨fun id wtx hwtx => ?_, h.log⟩
  dsimp only at hwtx
  rw [update_apply] at hwtx
  split at hwtx
  · cases hwtx
  · exact h.keyed id wtx hwtx

private theorem removeTxs_spec (hfiled : s.Filed P) (h : s.CacheExact isMine) (erased : Txid → Bool)
    (committed : Bool) (hashes : List Txid) : (s.removeTxs erased committed hashes).2.Filed P ∧
      (s.removeTxs erased committed hashes).2.CacheExact isMine := by
  have hloop : ∀ (hashes : List Txid) (s : TxStore), s.Filed P ∧ s.CacheExact isMine →
      (hashes.foldl forget s).Filed P ∧ (hashes.foldl forget s).CacheExact isMine := by
    intro hashes
    induction hashes with
    | nil => exact fun s hs => hs
    | cons hash hashes ih => exact fun s hs => ih _ ⟨hs.1.forget hash, hs.2.forget hash⟩
  unfold removeTxs
  split
  · exact ⟨hfiled, h⟩
  split
  · refine hloop hashes _ ⟨⟨hfiled.keyed, fun id wtx hmem => ?_⟩, h⟩
    obtain hmem | hmem := mem_append.mp hmem
    · exact hfiled.log id wtx hmem
    · obtain ⟨_, -, heq⟩ := mem_map.mp hmem
      cases heq
  · exact ⟨hfiled, h⟩

/-! ### Loading -/

/-- What holds while the records of a database are loaded: what is there is what is stored. -/
private structure Loading (P : Primitives) (isMine : CScript → Bool) (log : List TxWrite)
    (s : TxStore) : Prop where
  filed : s.Filed P
  exact : s.CacheExact isMine
  stored : ∀ id wtx, s.mapWallet id = some wtx → ∃ record, storedTxs log id = some record ∧
    wtx.tx = record.tx

private theorem Loading.loadToWallet (h : Loading P isMine log s) (fuel : Nat)
    (hrecord : storedTxs log id = some record) (hid : record.tx.getHash P = id) :
    Loading P isMine log
      (s.loadToWallet P isMine fuel id record) := by
  unfold TxStore.loadToWallet
  dsimp only
  generalize hwtx : (⟨record.tx, record.state.reloaded, ∅⟩ : CWalletTx) = wtx
  have htx : wtx.tx = record.tx := by rw [← hwtx]
  generalize hs₁ : ({ s with mapWallet := update s.mapWallet id (some wtx) } : TxStore) = s₁
  -- the entry is filed under its identifier, and its inputs and its conflicts do not matter
  have hkeyed : s₁.Filed P := by
    rw [← hs₁]
    exact ⟨forall_update h.filed.keyed (by rw [htx, hid]), h.filed.log⟩
  have hspends : Restates P s₁ (s₁.addToSpends P wtx) := by
    obtain ⟨spends, heq⟩ := s₁.addToSpends_frame (P := P) wtx
    rw [heq]
    exact ⟨⟨rfl, fun _ => rfl⟩, fun hfiled => ⟨hfiled.keyed, hfiled.log⟩⟩
  have hrest := hspends.trans
    (inheritConflicts_rel (P := P) .refl .trans (fun _ _ _ _ => setEntry_spec) _ fuel wtx)
  have hfiled₂ := hrest.filed hkeyed
  refine ⟨⟨hfiled₂.keyed, hfiled₂.log⟩, fun o => ?_, fun id' wtx' hwtx' => ?_⟩
  · rw [refreshTXOsFromTx_txos, hrest.same.txos, htx, hid]
    refine trans ?_ (hrest.same.exists_iff o.hash fun tx => Owns isMine tx o.n).symm
    rw [← hs₁]
    dsimp only
    by_cases ho : o.hash = id
    · rw [ho, update_self, h.exact o, ho]
      simp only [true_and, Option.some.injEq, exists_eq_left', htx]
      refine or_iff_right_of_imp ?_
      rintro ⟨old, hold, howns⟩
      obtain ⟨record', hrecord', htx'⟩ := h.stored id old hold
      cases hrecord.symm.trans hrecord'
      rwa [← htx']
    · rw [h.exact o]
      simp [ho]
  · obtain ⟨wtx₁, hwtx₁, heq⟩ := (hrest.same.exists_iff id' fun tx => tx = wtx'.tx).mp
      ⟨wtx', hwtx', rfl⟩
    rw [← hs₁] at hwtx₁
    rw [← heq]
    exact forall_update h.stored ⟨record, hrecord, htx⟩ id' wtx₁ hwtx₁

variable (isMine) in
private theorem load_spec (hlog : ∀ id wtx, TxWrite.tx id wtx ∈ log → wtx.tx.getHash P = id)
    (disk : Nat → Bool) (attempts : Nat) : (load P isMine log disk attempts).Filed P ∧
      (load P isMine log disk attempts).CacheExact isMine := by
  have hempty : Loading P isMine log
      { TxStore.new disk with log := log, attempts := attempts } := by
    refine ⟨⟨fun id wtx hwtx => ?_, hlog⟩, fun o => ?_, fun id wtx hwtx => ?_⟩
    · cases hwtx
    · simp [TxStore.new]
    · cases hwtx
  have hloaded : Loading P isMine log (load P isMine log disk attempts) :=
    load_induction hempty fun s fuel id record hrecord hs =>
      hs.loadToWallet fuel hrecord (hlog id record (mem_of_storedTxs hrecord))
  exact ⟨hloaded.filed, hloaded.exact⟩

end TxStore

namespace CWallet

open TxStore

/-! ### The cache along a run -/

variable {P} {w : CWallet}

/-- A step that keeps the cache exact. No output of a recorded transaction pays to a key that the
step learns, unless it is the wallet's own already, and a transaction is recorded cleanly. -/
def Keeps (P : Primitives) (w : CWallet) : WalletStep → Prop
  | .key .reload => True
  | .key op => ∀ id wtx n keyid, w.store.mapWallet id = some wtx → w.keys.Learns P op keyid →
      Owns (KeyCore.paysTo P keyid) wtx.tx n → Owns w.keys.isMine wtx.tx n
  | .addToWallet tx _ | .syncTransaction tx _ => w.store.RecordsCleanly P w.keys.isMine tx
  | .setLastBlockProcessed .. | .transactionRemovedFromMempool .. | .removeTxs .. => True

/-- No key that a step learns has the null identifier, which stands for no key. -/
def LearnsKeys (P : Primitives) (w : CWallet) : WalletStep → Prop
  | .key op => ∀ keyid, w.keys.Learns P op keyid → keyid.isNull = false
  | _ => True

/-- What is known of a wallet whose cache is exact. -/
private structure Exact (P : Primitives) (w : CWallet) : Prop where
  consistent : w.keys.Consistent P
  known : w.keys.Known P
  filed : w.store.Filed P
  cache : w.store.CacheExact w.keys.isMine

private theorem cacheExact_congr {isMine isMine' : CScript → Bool} {s : TxStore}
    (h : s.CacheExact isMine) : s.CacheExact isMine' ↔ ∀ id wtx n, s.mapWallet id = some wtx →
      (Owns isMine' wtx.tx n ↔ Owns isMine wtx.tx n) := by
  constructor
  · intro h' id wtx n hwtx
    have hsame := (h' ⟨id, n⟩).symm.trans (h ⟨id, n⟩)
    simpa [hwtx] using hsame
  · intro hsame o
    rw [h o]
    refine exists_congr fun wtx => and_congr_right fun hwtx => ?_
    exact (hsame o.hash wtx o.n hwtx).symm

private theorem Exact.key_iff (h : w.Exact P) {op : KeyOp} (hop : op ≠ .reload)
    (hids : w.LearnsKeys P (.key op)) : w.store.CacheExact (w.keys.step P op).isMine ↔
      ∀ id wtx n keyid, w.store.mapWallet id = some wtx → w.keys.Learns P op keyid →
        Owns (KeyCore.paysTo P keyid) wtx.tx n → Owns w.keys.isMine wtx.tx n := by
  have howns : ∀ (tx : CTransaction) n, Owns (w.keys.step P op).isMine tx n ↔
      Owns w.keys.isMine tx n ∨
      ∃ keyid, w.keys.Learns P op keyid ∧ Owns (KeyCore.paysTo P keyid) tx n := by
    intro tx n
    simp only [Owns, KeyCore.isMine_step h.consistent h.known hop hids]
    constructor
    · rintro ⟨p, hmem, hn, hmine | ⟨keyid, hlearns, hpays⟩⟩
      · exact .inl ⟨p, hmem, hn, hmine⟩
      · exact .inr ⟨keyid, hlearns, p, hmem, hn, hpays⟩
    · rintro (⟨p, hmem, hn, hmine⟩ | ⟨keyid, hlearns, p, hmem, hn, hpays⟩)
      · exact ⟨p, hmem, hn, .inl hmine⟩
      · exact ⟨p, hmem, hn, .inr ⟨keyid, hlearns, hpays⟩⟩
  rw [cacheExact_congr h.cache]
  constructor
  · intro hsame id wtx n keyid hwtx hlearns hpays
    exact (hsame id wtx n hwtx).mp ((howns _ _).mpr (.inr ⟨keyid, hlearns, hpays⟩))
  · intro hkeeps id wtx n hwtx
    rw [howns]
    exact or_iff_left_of_imp fun ⟨keyid, hlearns, hpays⟩ => hkeeps id wtx n keyid hwtx hlearns hpays

private theorem Exact.step_iff (h : w.Exact P) (i : WalletStep) (hids : w.LearnsKeys P i) :
    ((w.step P i).keys.Consistent P ∧ (w.step P i).keys.Known P ∧ (w.step P i).store.Filed P) ∧
      ((w.step P i).store.CacheExact (w.step P i).keys.isMine ↔ w.Keeps P i) := by
  cases i with
  | key op =>
    cases op with
    | setSeed | encryptWallet | lock | unlock | changeWalletPassphrase | getNewDestination
      | getNewChangeDestination =>
      exact ⟨⟨h.consistent.step _, h.known.step _, h.filed⟩, h.key_iff nofun hids⟩
    | reload =>
      obtain ⟨hfiled, hcache⟩ := load_spec (KeyCore.load P w.keys.db).isMine
        h.filed.log w.store.disk w.store.attempts
      exact ⟨⟨h.consistent.step .reload, h.known.step .reload, hfiled⟩, iff_of_true hcache trivial⟩
  | addToWallet tx state =>
    exact ⟨⟨h.consistent, h.known, h.filed.addToWallet tx state⟩,
      addToWallet_cacheExact_iff h.filed h.cache tx state⟩
  | syncTransaction tx state =>
    refine ⟨⟨h.consistent, h.known, h.filed.syncTransaction tx state⟩, ?_⟩
    dsimp only [step, Keeps]
    obtain ⟨hforeign, -, heq⟩ | ⟨-, heq⟩ := w.store.syncTransaction_eq P w.keys.isMine tx state
    · rw [heq]
      exact iff_of_true h.cache (.inr (.inr (not_mine_of_involvesMe hforeign)))
    · rw [heq]
      exact addToWallet_cacheExact_iff h.filed h.cache tx state
  | setLastBlockProcessed locator height hash =>
    have hspec := setLastBlockProcessed_spec (P := P) (s := w.store) locator height hash
    exact ⟨⟨h.consistent, h.known, hspec.filed h.filed⟩,
      iff_of_true (hspec.same.cacheExact_iff.mpr h.cache) trivial⟩
  | transactionRemovedFromMempool tx reason =>
    have hspec := transactionRemovedFromMempool_spec (P := P) (s := w.store) tx reason
    exact ⟨⟨h.consistent, h.known, hspec.filed h.filed⟩,
      iff_of_true (hspec.same.cacheExact_iff.mpr h.cache) trivial⟩
  | removeTxs erased committed hashes =>
    obtain ⟨hfiled, hcache⟩ := removeTxs_spec h.filed h.cache erased committed hashes
    exact ⟨⟨h.consistent, h.known, hfiled⟩, iff_of_true hcache trivial⟩

private theorem exact_new (disk : Nat → Bool) : (new disk).Exact P where
  consistent := KeyCore.consistent_new _
  known := KeyCore.known_new _
  filed := ⟨fun _ _ h => (Option.some_ne_none _ h.symm).elim, fun _ _ h => (not_mem_nil h).elim⟩
  cache o := by simp [new, TxStore.new]

/-- The cache is exact in every state of a run exactly if no step of it learns a key to which a
recorded transaction pays, and no step fails to write a transaction with an own output that is
new. -/
theorem txos_exact_iff (disk : Nat → Bool) (steps : List WalletStep)
    (hids : Meets (step P) (LearnsKeys P) (new disk) steps) :
    Along (step P) (fun w => w.store.CacheExact w.keys.isMine) (new disk) steps ↔
      Meets (step P) (Keeps P) (new disk) steps := by
  apply along_iff_meets_of (J := Exact P) (E := LearnsKeys P)
  · exact fun w h => h.cache
  · intro w i h hids hkeeps
    obtain ⟨⟨hconsistent, hknown, hfiled⟩, hiff⟩ := h.step_iff i hids
    exact ⟨hconsistent, hknown, hfiled, hiff.mpr hkeeps⟩
  · intro w i h hids hcache
    exact (h.step_iff i hids).2.mp hcache
  · exact exact_new disk
  · exact hids

/-! ### An address that is handed out too late -/

namespace LateAddress

open KeyCore.OneAddress

/-- The first script of the seed. -/
def script : CScript := witnessProgramScript keyid.data

/-- A transaction that pays to it is recorded before the address is handed out. -/
def steps : List WalletStep :=
  [.key (.setSeed (.fill 32 7)), .addToWallet (funding script) .inMempool,
    .key (.getNewDestination "")]

/-- The address is handed out first. -/
def inOrder : List WalletStep :=
  [.key (.setSeed (.fill 32 7)), .key (.getNewDestination ""),
    .addToWallet (funding script) .inMempool]

private theorem seeded_isMine (s : CScript) :
    (KeyCore.setSeed .repeating (.new .empty) (.fill 32 7)).isMine s = false := by
  unfold KeyCore.isMine
  split
  · rfl
  dsimp only
  split
  · rfl
  · rfl

end LateAddress

open LateAddress KeyCore.OneAddress in
theorem txos_exact_iff_inOrder : Along (step .repeating) (fun w => w.store.CacheExact w.keys.isMine)
    (new fun _ => true) inOrder := by
  refine (txos_exact_iff _ inOrder ⟨nofun, ?_, trivial, trivial⟩).mpr ⟨?_, ?_, .inl rfl, trivial⟩
  · rintro id ⟨-, child, hchild, rfl⟩
    rw [key_of_derive hchild]
    exact (congrArg Blob.isNull (Primitives.repeating.key_getID 7)).trans (by decide)
  -- nothing is recorded yet
  · intro id wtx n keyid hwtx
    cases hwtx
  · intro id wtx n keyid hwtx
    cases hwtx

open LateAddress KeyCore.OneAddress in
/-- The wallet has recorded the transaction and owns its output, and the cache does not have it. -/
theorem txos_misses_late_address :
    let w := run (step .repeating) (new fun _ => true) LateAddress.steps
    (∃ wtx, w.store.mapWallet ((funding LateAddress.script).getHash .repeating) = some wtx ∧
        Owns w.keys.isMine wtx.tx 0) ∧
      w.store.txos ⟨(funding LateAddress.script).getHash .repeating, 0⟩ = none := by
  obtain ⟨wtx, hmap, htx, htxos, -⟩ := addToWallet_spec .repeating
    (KeyCore.setSeed .repeating (.new .empty) (.fill 32 7)).isMine (.new fun _ => true)
    (funding LateAddress.script) .inMempool
  refine ⟨⟨wtx, ?_, ?_⟩, ?_⟩
  · exact (congrFun hmap _).trans (update_self _ _ _)
  · have hmine := (wallet_owns LateAddress.script
      (.inr (by rw [LateAddress.script, extractDestination, solver_keyHashProgram]))).1
    rw [htx]
    exact ⟨(⟨1000, LateAddress.script⟩, 0), mem_singleton.mpr rfl, rfl, hmine⟩
  · refine Option.not_isSome_iff_eq_none.mp fun hsome => ?_
    obtain hnew | ⟨-, -, p, -, -, hmine⟩ := (htxos _).mp hsome
    · cases hnew
    · rw [seeded_isMine] at hmine
      cases hmine

end CWallet

end Tessera.Wallet
