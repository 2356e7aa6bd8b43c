import Mathlib.Data.List.Sort
import Tessera.Tx.SigHash

/-!
# The transaction store of the wallet

The transactions of `CWallet` (`wallet/wallet.cpp`): `mapWallet` with the state of each transaction
(`wallet/transaction.h`), the index of spent outpoints, the cache of the wallet's outputs, and the
notifications that the chain sends.

The database is the list of the writes that went through, the latest last. A write may fail: `disk`
says of each attempt whether it goes through. Whether a script is the wallet's own is a parameter.
The order, times, labels and cached amounts of transactions are left out.
-/

namespace Tessera.Wallet

open Function Script Tx

/-! ### Transaction states -/

inductive TxState where
  | confirmed (blockHash : Uint256) (height position : Int)
  | inMempool
  | blockConflicted (blockHash : Uint256) (height : Int)
  | inactive (abandoned : Bool)
  | unrecognized (blockHash : Uint256) (index : Int)
  deriving DecidableEq

namespace TxState

def index : TxState → Nat
  | confirmed .. => 0
  | inMempool => 1
  | blockConflicted .. => 2
  | inactive _ => 3
  | unrecognized .. => 4

def serializedBlockHash : TxState → Uint256
  | inactive abandoned => if abandoned then uint256One else .null 32
  | inMempool => .null 32
  | confirmed hash _ _ => hash
  | blockConflicted hash _ => hash
  | unrecognized hash _ => hash

def serializedIndex : TxState → Int
  | inactive abandoned => if abandoned then -1 else 0
  | inMempool => 0
  | confirmed _ _ position => position
  | blockConflicted .. => -1
  | unrecognized _ index => index

def interpretSerialized (hash : Uint256) (index : Int) : TxState :=
  if hash = .null 32 then
    if index = 0 then inactive false else unrecognized hash index
  else if hash = uint256One then
    if index = -1 then inactive true else unrecognized hash index
  else if 0 ≤ index then confirmed hash (-1) index
  else if index = -1 then blockConflicted hash (-1)
  else unrecognized hash index

/-- The state that a record of the given state is read back as. -/
def reloaded (state : TxState) : TxState :=
  interpretSerialized state.serializedBlockHash state.serializedIndex

end TxState

structure CWalletTx where
  tx : CTransaction
  state : TxState
  mempoolConflicts : Finset Txid

namespace CWalletTx

variable (wtx : CWalletTx)

def isAbandoned : Bool := wtx.state == .inactive true

def isMempoolConflicted : Bool := !decide (wtx.mempoolConflicts = ∅)

def isBlockConflicted : Bool :=
  match wtx.state with
  | .blockConflicted .. => true
  | _ => false

def isInactive : Bool :=
  match wtx.state with
  | .inactive _ => true
  | _ => false

def isConfirmed : Bool :=
  match wtx.state with
  | .confirmed .. => true
  | _ => false

def inMempool : Bool := wtx.state == .inMempool

/-- A transaction whose spends count. -/
def isLive : Bool :=
  !wtx.isAbandoned && !wtx.isBlockConflicted && !wtx.isMempoolConflicted

theorem isBlockConflicted_iff (wtx : CWalletTx) : wtx.isBlockConflicted ↔ wtx.state.index = 2 := by
  cases hstate : wtx.state <;> simp [isBlockConflicted, TxState.index, hstate]

private theorem isInactive_iff (wtx : CWalletTx) : wtx.isInactive ↔ wtx.state.index = 3 := by
  cases hstate : wtx.state <;> simp [isInactive, TxState.index, hstate]

end CWalletTx

/-! ### The store -/

structure CBlockLocator where
  vHave : List Uint256
  deriving DecidableEq

/-- The records that the store writes and erases. -/
inductive TxWrite where
  | tx (id : Txid) (wtx : CWalletTx)
  | bestBlock (locator : CBlockLocator)
  | eraseTx (id : Txid)

/-- The fields of `CWallet` that hold transactions, with the writes to the database. -/
structure TxStore where
  mapWallet : Txid → Option CWalletTx
  mapTxSpends : COutPoint → List Txid
  txos : COutPoint → Option CTxOut
  lastBlockProcessedHeight : Int
  lastBlockProcessed : Uint256
  log : List TxWrite
  disk : Nat → Bool
  attempts : Nat

def TxStore.new (disk : Nat → Bool) : TxStore :=
  ⟨fun _ => none, fun _ => [], fun _ => none, -1, .null 32, [], disk, 0⟩

inductive MemPoolRemovalReason where
  | expiry
  | sizeLimit
  | reorg
  | block
  | conflict
  | replaced
  deriving DecidableEq

/-- `interfaces::BlockInfo`, with the transactions of the block data if it is there. -/
structure BlockInfo where
  hash : Uint256
  prevHash : Option Uint256
  height : Int
  data : Option (List CTransaction)
  deriving DecidableEq

namespace TxStore

/-- A write to the database, and whether it went through. -/
def write (s : TxStore) (w : TxWrite) : Bool × TxStore :=
  if s.disk s.attempts then (true, { s with attempts := s.attempts + 1, log := s.log ++ [w] })
  else (false, { s with attempts := s.attempts + 1 })

variable (P : Primitives) (isMine : CScript → Bool)

/-! ### Ingesting transactions -/

/-- `CWallet::AddToSpends` on an outpoint. -/
def addSpend (spends : COutPoint → List Txid) (outpoint : COutPoint) (id : Txid) :
    COutPoint → List Txid :=
  if id ∈ spends outpoint then spends else update spends outpoint (spends outpoint ++ [id])

/-- `CWallet::AddToSpends` on a transaction. -/
def addToSpends (s : TxStore) (wtx : CWalletTx) : TxStore :=
  if wtx.tx.isCoinBase then s
  else
    { s with
      mapTxSpends := wtx.tx.vin.foldl
        (fun spends txin => addSpend spends txin.prevout (wtx.tx.getHash P)) s.mapTxSpends }

def refreshTXOsFromTx (s : TxStore) (wtx : CWalletTx) : TxStore :=
  { s with
    txos := wtx.tx.vout.zipIdx.foldl
      (fun txos p => let outpoint : COutPoint := ⟨wtx.tx.getHash P, UInt32.ofNat p.2⟩
        if isMine p.1.scriptPubKey ∧ txos outpoint = none then
          update txos outpoint (some p.1)
        else txos) s.txos }

/-- The entry of a transaction after `AddToWallet`, and whether it has to be written. -/
def ingest (old : Option CWalletTx) (tx : CTransaction) (state : TxState) : CWalletTx × Bool :=
  let (wtx, changed) : CWalletTx × Bool := match old with
    | none => (⟨tx, state, ∅⟩, true)
    | some wtx =>
      if state.index ≠ wtx.state.index then ({ wtx with state := state }, true) else (wtx, false)
  -- an inactive coinbase is marked as abandoned
  if wtx.tx.isCoinBase && wtx.isInactive then ({ wtx with state := .inactive true }, true)
  else (wtx, changed)

variable (s : TxStore) (tx : CTransaction)

/-- `CWallet::AddToWallet`, and whether the record could be written. -/
def addToWallet (state : TxState) : Bool × TxStore :=
  let id := tx.getHash P
  let entry := ingest (s.mapWallet id) tx state
  let s := if (s.mapWallet id).isNone then s.addToSpends P entry.1 else s
  let s := { s with mapWallet := update s.mapWallet id (some entry.1) }
  let written := if entry.2 then s.write (.tx id entry.1) else (true, s)
  (written.1, if written.1 then written.2.refreshTXOsFromTx P isMine entry.1 else written.2)

/-- The part of `AddToWalletIfInvolvingMe` that decides whether a transaction involves the wallet.
-/
def involvesMe : Bool :=
  tx.vout.any (fun txout => isMine txout.scriptPubKey) ||
    tx.vin.any fun txin =>
      match s.mapWallet txin.prevout.hash with
      | some wtx =>
        match wtx.tx.vout[txin.prevout.n.toNat]? with
        | some txout => isMine txout.scriptPubKey
        | none => false
      | none => false

def addToWalletIfInvolvingMe (state : TxState) : Bool × TxStore :=
  if !s.involvesMe isMine tx && (s.mapWallet (tx.getHash P)).isNone then (false, s)
  else s.addToWallet P isMine tx state

def syncTransaction (state : TxState) : Bool × TxStore :=
  s.addToWalletIfInvolvingMe P isMine tx state

/-! ### Updating the states of transactions and their descendants -/

/-- The order of `uint256`, which `std::set<Txid>` is kept in. -/
def txidLE (a b : Txid) : Bool := decide (a.data ≤ b.data)

def insertTxid (id : Txid) (todo : List Txid) : List Txid :=
  if id ∈ todo then todo else todo.orderedInsert (fun a b => txidLE a b = true) id

variable (s : TxStore)

/-- The transactions that spend an output of a transaction, added to what is left to do. -/
def addSpenders (id : Txid) (tx : CTransaction) (todo : List Txid) : List Txid :=
  (List.range tx.vout.length).foldl (fun todo i =>
    (s.mapTxSpends ⟨id, UInt32.ofNat i⟩).foldl (fun todo id => insertTxid id todo) todo) todo

/-- `CWallet::RecursiveUpdateTxState`: update the smallest transaction that is left to do and go on
with those that spend it, until nothing is left or the fuel is used up. None stands for an update
that leaves a transaction unchanged. -/
def recursiveUpdateTxState (update : CWalletTx → Option CWalletTx) : Nat → List Txid →
    TxStore → TxStore
  | 0, _, s => s
  | _, [], s => s
  | fuel + 1, now :: todo, s =>
    match s.mapWallet now with
    | none => recursiveUpdateTxState update fuel todo s
    | some wtx =>
      match update wtx with
      | none => recursiveUpdateTxState update fuel todo s
      | some wtx' =>
        let s := { s with mapWallet := Function.update s.mapWallet now (some wtx') }
        let s := (s.write (.tx now wtx')).2
        recursiveUpdateTxState update fuel (s.addSpenders now wtx'.tx todo) s

def markConflicted (fuel : Nat) (hashBlock : Uint256) (height : Int) (id : Txid) : TxStore :=
  recursiveUpdateTxState (fun wtx => if wtx.isBlockConflicted then none
    else some { wtx with state := .blockConflicted hashBlock height }) fuel [id] s

/-! ### Notifications -/

/-- `CWallet::SetLastBlockProcessed`, with the locator that the chain has for the block. There is
none for a block that the chain does not know, and for a wallet without a chain. -/
def setLastBlockProcessed (locator : Option CBlockLocator) (height : Int)
    (hash : Uint256) : TxStore :=
  let s := { s with lastBlockProcessedHeight := height, lastBlockProcessed := hash }
  if height < 0 then s
  else
    match locator with
    | some loc => if loc.vHave = [] then s else (s.write (.bestBlock loc)).2
    | none => s

def transactionAddedToMempool (tx : CTransaction) : TxStore :=
  (s.syncTransaction P isMine tx .inMempool).2

def transactionRemovedFromMempool (tx : CTransaction)
    (reason : MemPoolRemovalReason) : TxStore :=
  if reason = .block ∨ reason = .conflict then s
  else
    let id := tx.getHash P
    match s.mapWallet id with
    | some wtx =>
      if wtx.inMempool then
        let wtx := { wtx with state := .inactive false }
        ({ s with mapWallet := update s.mapWallet id (some wtx) }.write (.tx id wtx)).2
      else s
    | none => s

/-- The loop of `blockConnected` over the transactions of a block, from a position on. -/
def syncBlock (s : TxStore) (hash : Uint256) (height : Int) : Nat → List CTransaction → TxStore
  | _, [] => s
  | i, tx :: vtx =>
    syncBlock (s.syncTransaction P isMine tx (.confirmed hash height i)).2 hash height (i + 1) vtx

variable (locator : Option CBlockLocator)

def blockConnected (historical : Bool)
    (block : BlockInfo) : TxStore :=
  if historical then s
  else
    let s := s.setLastBlockProcessed locator block.height block.hash
    match block.data with
    | none => s
    | some vtx => s.syncBlock P isMine block.hash block.height 0 vtx

def blockDisconnected (block : BlockInfo) : TxStore :=
  let s := s.setLastBlockProcessed locator (block.height - 1) (block.prevHash.getD (.null 32))
  match block.data with
  | none => s
  | some vtx => vtx.foldl (fun s tx => (s.syncTransaction P isMine tx (.inactive false)).2) s

/-! ### What is spent -/

def isSpent (outpoint : COutPoint) : Bool :=
  (s.mapTxSpends outpoint).any fun id =>
    match s.mapWallet id with
    | some wtx => wtx.isLive
    | none => false

inductive SpendType where
  | unspent
  | confirmed
  | mempool
  | nonMempool
  deriving DecidableEq

def howSpent (s : TxStore) (outpoint : COutPoint) : SpendType :=
  go (s.mapTxSpends outpoint) .unspent
where
  go : List Txid → SpendType → SpendType
    | [], st => st
    | id :: rest, st =>
      match s.mapWallet id with
      | none => go rest st
      | some wtx =>
        if wtx.isConfirmed then .confirmed
        else if wtx.inMempool then go rest .mempool
        else if wtx.isLive ∧ st = .unspent then go rest .nonMempool
        else go rest st

/-! ### What the operations do to the transactions -/

variable {P isMine} (s : TxStore)

@[simp] theorem write_mapWallet (w : TxWrite) : (s.write w).2.mapWallet = s.mapWallet := by
  unfold write
  split <;> rfl

theorem addToSpends_frame (wtx : CWalletTx) : ∃ spends, s.addToSpends P wtx =
    { s with mapTxSpends := spends } := by
  unfold addToSpends
  split
  · exact ⟨_, rfl⟩
  · exact ⟨_, rfl⟩

@[simp] theorem setLastBlockProcessed_mapWallet (locator : Option CBlockLocator) (height : Int)
    (hash : Uint256) : (s.setLastBlockProcessed locator height hash).mapWallet = s.mapWallet := by
  unfold setLastBlockProcessed
  split
  · rfl
  split
  · split
    · rfl
    · exact write_mapWallet _ _
  · rfl

/-- A transaction that the wallet has is kept as it is, apart from its state. -/
theorem ingest_tx (old : Option CWalletTx) (tx : CTransaction) (state : TxState) :
    (ingest old tx state).1.tx = (old.map CWalletTx.tx).getD tx := by
  unfold ingest
  cases old with
  | none =>
    dsimp only
    split <;> rfl
  | some wtx =>
    dsimp only
    split
    next hindex =>
      split <;> rfl
    next hindex =>
      split <;> rfl

private theorem coinbase_index (wtx : CWalletTx) (changed : Bool) :
      (if wtx.tx.isCoinBase && wtx.isInactive then
      (({ wtx with state := .inactive true } : CWalletTx), true)
        else (wtx, changed)).1.state.index = wtx.state.index := by
  split
  next h => exact (wtx.isInactive_iff.mp (Bool.and_eq_true_iff.mp h).2).symm
  · rfl

/-- The state of an entry that is ingested is of the given kind. -/
theorem ingest_index (old : Option CWalletTx) (tx : CTransaction) (state : TxState) :
    (ingest old tx state).1.state.index = state.index := by
  cases old with
  | none => exact coinbase_index _ _
  | some wtx =>
    unfold ingest
    dsimp only
    split
    next hindex => exact coinbase_index _ _
    next hindex => exact (coinbase_index _ _).trans (not_not.mp hindex).symm

/-- A property of all entries of a map, after one of them is set. -/
theorem forall_update {Q : Txid → CWalletTx → Prop} {m : Txid → Option CWalletTx} {id : Txid}
    (hm : ∀ id wtx, m id = some wtx → Q id wtx) {wtx : CWalletTx} (hwtx : Q id wtx)
    (id' : Txid) (wtx' : CWalletTx) (h : update m id (some wtx) id' = some wtx') : Q id' wtx' := by
  by_cases hid : id' = id
  · subst hid
    rw [update_self] at h
    cases h
    exact hwtx
  · rw [update_of_ne hid] at h
    exact hm id' wtx' h

variable (P isMine) in
/-- `AddToWallet` sets the entry, writes it if it has to, and refreshes the cache if it gets past
the write. -/
theorem addToWallet_cases (tx : CTransaction) (state : TxState) :
    ∃ (s₁ : TxStore) (written : Bool × TxStore), s₁.mapWallet = update s.mapWallet (tx.getHash P)
        (some (ingest (s.mapWallet (tx.getHash P)) tx state).1) ∧ s₁.txos = s.txos ∧
        s₁.log = s.log ∧
      (written = (true, s₁) ∨
        written = s₁.write (.tx (tx.getHash P) (ingest (s.mapWallet (tx.getHash P)) tx state).1)) ∧
      s.addToWallet P isMine tx state = (written.1, if written.1 then
        written.2.refreshTXOsFromTx P isMine (ingest (s.mapWallet (tx.getHash P)) tx state).1
          else written.2) := by
  unfold addToWallet
  dsimp only
  generalize ingest (s.mapWallet (tx.getHash P)) tx state = entry
  obtain ⟨spends, hspends⟩ : ∃ spends, (if (s.mapWallet (tx.getHash P)).isNone = true then
      s.addToSpends P entry.1 else s) = { s with mapTxSpends := spends } := by
    split
    · exact s.addToSpends_frame entry.1
    · exact ⟨_, rfl⟩
  rw [hspends]
  refine ⟨{ s with mapTxSpends := spends, mapWallet := _ }, _, rfl, rfl, rfl, ?_, rfl⟩
  split
  · exact .inr rfl
  · exact .inl rfl

theorem addToWallet_mapWallet (tx : CTransaction) (state : TxState) :
    (s.addToWallet P isMine tx state).2.mapWallet = update s.mapWallet (tx.getHash P)
      (some (ingest (s.mapWallet (tx.getHash P)) tx state).1) := by
  obtain ⟨s₁, written, hmap, -, -, hwritten, heq⟩ := s.addToWallet_cases P isMine tx state
  have hsame : written.2.mapWallet = s₁.mapWallet := by
    obtain rfl | rfl := hwritten
    · rfl
    · exact write_mapWallet _ _
  rw [heq, ← hmap, ← hsame]
  split <;> rfl

variable (P isMine) in
/-- A transaction that is synced is none of the wallet's, or it is added to the wallet. -/
theorem syncTransaction_eq (tx : CTransaction) (state : TxState) :
    s.involvesMe isMine tx = false ∧ s.mapWallet (tx.getHash P) = none ∧
        s.syncTransaction P isMine tx state = (false, s) ∨
      (s.involvesMe isMine tx = true ∨ (s.mapWallet (tx.getHash P)).isSome) ∧
        s.syncTransaction P isMine tx state = s.addToWallet P isMine tx state := by
  unfold syncTransaction addToWalletIfInvolvingMe
  split
  next hskip =>
    simp only [Bool.and_eq_true, Bool.not_eq_true', Option.isNone_iff_eq_none] at hskip
    exact .inl ⟨hskip.1, hskip.2, rfl⟩
  next hskip =>
    refine .inr ⟨?_, rfl⟩
    rw [← Option.not_isNone, Bool.not_eq_true']
    by_contra! hnot
    simp [hnot.1, hnot.2] at hskip

variable (P isMine) in
/-- A transaction that is synced is either not recorded, and was not before, or ingested. -/
theorem syncTransaction_cases (tx : CTransaction) (state : TxState) :
    s.mapWallet (tx.getHash P) = none ∧ s.syncTransaction P isMine tx state = (false, s) ∨
      (s.syncTransaction P isMine tx state).2.mapWallet = update s.mapWallet (tx.getHash P)
        (some (ingest (s.mapWallet (tx.getHash P)) tx state).1) := by
  obtain ⟨-, hnew, heq⟩ | ⟨-, heq⟩ := s.syncTransaction_eq P isMine tx state
  · exact .inl ⟨hnew, heq⟩
  · rw [heq]
    exact .inr (addToWallet_mapWallet s tx state)

end TxStore

/-! ## Loading and removing transactions

`LoadToWallet` and `RemoveTxs` (`wallet/wallet.cpp`) and the part of `wallet/walletdb.cpp` that
reads the transaction records: what the database holds after its writes, and the store that is built
from it.
-/

/-! ### What the database holds -/

/-- The effect of a write on the transaction records. -/
def TxWrite.apply (records : Txid → Option CWalletTx) : TxWrite → Txid → Option CWalletTx
  | tx id wtx => update records id (some wtx)
  | eraseTx id => update records id none
  | bestBlock _ => records

/-- The transaction records after some writes. -/
def storedTxs (log : List TxWrite) : Txid → Option CWalletTx :=
  log.foldl TxWrite.apply fun _ => none

/-- A record that is stored was written. -/
theorem mem_of_storedTxs {log : List TxWrite} {id : Txid} {record : CWalletTx}
    (h : storedTxs log id = some record) : TxWrite.tx id record ∈ log := by
  have hloop : ∀ (log : List TxWrite) (records : Txid → Option CWalletTx),
      log.foldl TxWrite.apply records id = some record →
        records id = some record ∨ TxWrite.tx id record ∈ log := by
    intro log
    induction log with
    | nil => exact fun records h => .inl h
    | cons w log ih =>
      intro records h
      obtain hrecords | hmem := ih _ h
      swap
      · exact .inr (List.mem_cons_of_mem w hmem)
      cases w with
      | tx id' wtx =>
        rw [TxWrite.apply, update_apply] at hrecords
        split at hrecords
        · subst id'
          cases hrecords
          exact .inr List.mem_cons_self
        · exact .inl hrecords
      | eraseTx id' =>
        rw [TxWrite.apply, update_apply] at hrecords
        split at hrecords
        · cases hrecords
        · exact .inl hrecords
      | bestBlock locator => exact .inl hrecords
  obtain hnone | hmem := hloop log _ h
  · cases hnone
  · exact hmem

namespace TxStore

/-- The identifiers of the records, in the order in which the database is read. -/
def storedIds (log : List TxWrite) : List Txid :=
  let written := log.foldl (fun ids w => match w with
    | .tx id _ => insertTxid id ids
    | _ => ids) []
  written.filter fun id => (storedTxs log id).isSome

variable (P : Primitives) (isMine : CScript → Bool)

/-- The loop of `LoadToWallet` over the inputs: a parent in conflict with a block passes its
conflict on. -/
def inheritConflicts (s : TxStore) (fuel : Nat) (wtx : CWalletTx) : TxStore :=
  wtx.tx.vin.foldl (fun s txin => match s.mapWallet txin.prevout.hash with
    | some parent =>
      match parent.state with
      | .blockConflicted hash height => s.markConflicted fuel hash height (wtx.tx.getHash P)
      | _ => s
    | none => s) s

section Rules

variable {P} {R : TxStore → TxStore → Prop} (hrefl : ∀ s, R s s)
  (htrans : ∀ {s₁ s₂ s₃}, R s₁ s₂ → R s₂ s₃ → R s₁ s₃)

include hrefl htrans

/-- Updating a transaction and its descendants leads to what setting entries leads to. -/
theorem recursiveUpdateTxState_rel {update : CWalletTx → Option CWalletTx}
    (hset : ∀ (s : TxStore) id wtx wtx', s.mapWallet id = some wtx → update wtx = some wtx' →
      R s ({ s with mapWallet := Function.update s.mapWallet id (some wtx') }.write
        (.tx id wtx')).2)
    (fuel : Nat) (todo : List Txid) (s : TxStore) :
    R s (recursiveUpdateTxState update fuel todo s) := by
  induction fuel generalizing todo s with
  | zero => exact hrefl s
  | succ fuel ih =>
    cases todo with
    | nil => exact hrefl s
    | cons now todo =>
      unfold recursiveUpdateTxState
      split
      · exact ih todo s
      next wtx hwtx =>
        split
        · exact ih todo s
        next wtx' hwtx' => exact htrans (hset s now wtx wtx' hwtx hwtx') (ih _ _)

/-- So does inheriting conflicts, which leaves the transactions themselves alone. -/
theorem inheritConflicts_rel (hset : ∀ (s : TxStore) id wtx wtx', s.mapWallet id = some wtx →
    wtx'.tx = wtx.tx →
      R s ({ s with mapWallet := Function.update s.mapWallet id (some wtx') }.write
        (.tx id wtx')).2)
    (s : TxStore) (fuel : Nat) (wtx : CWalletTx) : R s (s.inheritConflicts P fuel wtx) := by
  unfold inheritConflicts
  generalize wtx.tx.vin = vin
  induction vin generalizing s with
  | nil => exact hrefl s
  | cons txin vin ih =>
    rw [List.foldl_cons]
    refine htrans ?_ (ih _)
    split
    · split
      · refine recursiveUpdateTxState_rel hrefl htrans
          (fun s id wtx wtx' hwtx h => hset s id wtx wtx' hwtx ?_) _ _ _
        split at h
        · cases h
        · cases h
          rfl
      · exact hrefl s
    · exact hrefl s

end Rules

/-- `CWallet::LoadToWallet` with a record. -/
def loadToWallet (s : TxStore) (fuel : Nat) (id : Txid) (record : CWalletTx) : TxStore :=
  let wtx : CWalletTx := ⟨record.tx, record.state.reloaded, ∅⟩
  let s := { s with mapWallet := update s.mapWallet id (some wtx) }
  let s := s.addToSpends P wtx
  let s := s.inheritConflicts P fuel wtx
  s.refreshTXOsFromTx P isMine wtx

/-- `LoadTxRecords` into a new wallet object. A transaction gets in conflict once at most, and then
every other one is added to what is left to do at most, which bounds the fuel. -/
def load (log : List TxWrite) (disk : Nat → Bool) (attempts : Nat) : TxStore :=
  let ids := storedIds log
  ids.foldl (fun s id => match storedTxs log id with
    | some record => s.loadToWallet P isMine ((ids.length + 1) ^ 2) id record
    | none => s) { TxStore.new disk with log := log, attempts := attempts }

variable {P isMine} in
/-- What holds of an empty wallet and is kept by loading a stored record holds once all are loaded.
-/
theorem load_induction {I : TxStore → Prop} {log : List TxWrite} {disk : Nat → Bool}
    {attempts : Nat} (hempty : I { TxStore.new disk with log := log, attempts := attempts })
    (hload : ∀ s fuel id record, storedTxs log id = some record → I s →
      I (s.loadToWallet P isMine fuel id record)) : I (load P isMine log disk attempts) := by
  refine List.foldlRecOn (storedIds log) _ hempty fun s hs id _ => ?_
  cases hrecord : storedTxs log id with
  | none => exact hs
  | some record => exact hload s _ id record hrecord hs

/-! ### Removing transactions -/

/-- The digits of `base_blob::GetHex`, the last byte first. -/
def getHex (id : Txid) : String :=
  String.ofList (id.data.reverse.flatMap fun b =>
    [Nat.digitChar (b.toNat / 16), Nat.digitChar (b.toNat % 16)])

/-- The loop of `RemoveTxs` over the transactions to remove. `erased` says of each whether its
record could be erased. -/
def checkRemovals (s : TxStore) (erased : Txid → Bool) : List Txid → Except String Unit
  | [] => .ok ()
  | hash :: rest =>
    if (s.mapWallet hash).isNone then
      .error ("Transaction " ++ getHex hash ++ " does not belong to this wallet")
    else if !erased hash then .error ("Failure removing transaction: " ++ getHex hash)
    else checkRemovals s erased rest

/-- Forget a transaction in memory, which `RemoveTxs` does once the removal is on disk. -/
def forget (s : TxStore) (hash : Txid) : TxStore :=
  match s.mapWallet hash with
  | none => s
  | some wtx =>
    { s with
      mapTxSpends := wtx.tx.vin.foldl (fun spends txin =>
        update spends txin.prevout ((spends txin.prevout).erase hash)) s.mapTxSpends
      txos := (List.range wtx.tx.vout.length).foldl
        (fun txos i => update txos ⟨hash, UInt32.ofNat i⟩ none) s.txos
      mapWallet := update s.mapWallet hash none }

/-- `CWallet::RemoveTxs` within a database transaction, with which records could be erased and
whether the transaction could be committed. -/
def removeTxs (s : TxStore) (erased : Txid → Bool) (committed : Bool) (hashes : List Txid) :
    Except String Unit × TxStore :=
  match s.checkRemovals erased hashes with
  | .error e => (.error e, s)
  | .ok () =>
    if committed then
      (.ok (), hashes.foldl forget { s with log := s.log ++ hashes.map .eraseTx })
    else
      (.error "Error starting/committing db txn for wallet transactions removal process", s)

end TxStore

end Tessera.Wallet
