import Tessera.Wallet.TxStore

/-!
# Balances

`wallet/receive.cpp`: which transactions the wallet trusts, and the balance that each of its outputs
counts towards. A transaction in conflict with a block is never trusted, and its outputs count
towards no balance.
-/

namespace Tessera.Wallet

open Script Tx Option

def coinbaseMaturity : Int := 100

namespace TxStore

variable (P : Primitives) (isMine : CScript → Bool) (s : TxStore) (wtx : CWalletTx)

def getTxDepthInMainChain : Int :=
  match wtx.state with
  | .confirmed _ height _ => s.lastBlockProcessedHeight - height + 1
  | .blockConflicted _ height => -(s.lastBlockProcessedHeight - height + 1)
  | _ => 0

def getTxBlocksToMaturity : Int :=
  if wtx.tx.isCoinBase then
    if s.getTxDepthInMainChain wtx < 0 then 0
    else max 0 (coinbaseMaturity + 1 - s.getTxDepthInMainChain wtx)
  else 0

def isTxImmatureCoinBase : Bool :=
  decide (0 < s.getTxBlocksToMaturity wtx)

def isFromMe (tx : CTransaction) : Bool :=
  tx.vin.any fun txin => (s.txos txin.prevout).isSome

/-! ### Trust -/

/-- The loop of `CachedTxIsTrusted` over the inputs, given how parents are judged. A parent that is
trusted is noted. -/
def inputsTrusted (s : TxStore)
    (parentTrusted : CWalletTx → Finset Txid → Option (Bool × Finset Txid)) :
    List CTxIn → Finset Txid → Option (Bool × Finset Txid)
  | [], trusted => some (true, trusted)
  | txin :: vin, trusted =>
    match s.mapWallet txin.prevout.hash with
    | none => some (false, trusted)
    | some parent =>
      match parent.tx.vout[txin.prevout.n.toNat]? with
      | none => some (false, trusted)
      | some parentOut =>
        if isMine parentOut.scriptPubKey then
          if parent.tx.getHash P ∈ trusted then inputsTrusted s parentTrusted vin trusted
          else
            match parentTrusted parent trusted with
            | none => none
            | some (false, trusted) => some (false, trusted)
            | some (true, trusted) =>
              inputsTrusted s parentTrusted vin (insert (parent.tx.getHash P) trusted)
        else some (false, trusted)

/-- `CachedTxIsTrusted`, with the parents that are known to be trusted; none if the fuel is used up.
-/
def cachedTxIsTrusted (s : TxStore) (spendZeroConfChange : Bool) :
    Nat → CWalletTx → Finset Txid → Option (Bool × Finset Txid)
  | 0, _, _ => none
  | fuel + 1, wtx, trusted =>
    if wtx.tx.getHash P ∈ trusted then some (true, trusted)
    else if wtx.isConfirmed then some (true, trusted)
    else if wtx.isBlockConflicted then some (false, trusted)
    else if !spendZeroConfChange || !s.isFromMe wtx.tx then some (false, trusted)
    else if !wtx.inMempool then some (false, trusted)
    else s.inputsTrusted P isMine (cachedTxIsTrusted s spendZeroConfChange fuel) wtx.tx.vin trusted

/-! ### Balances -/

/-- The fields of `Balance` that an output may be added to. -/
inductive Bucket where
  | immature
  | trusted
  | untrustedPending
  deriving DecidableEq

/-- The body of the loop of `GetBalance`: the balance that an output of a transaction counts
towards, with the transactions found to be trusted. -/
def balanceBucket (s : TxStore) (spendZeroConfChange : Bool) (fuel : Nat) (minDepth : Int)
    (includeNonmempool : Bool) (wtx : CWalletTx) (outpoint : COutPoint) (trusted : Finset Txid) :
    Option (Option Bucket × Finset Txid) := do
  let (isTrusted, trusted) ← s.cachedTxIsTrusted P isMine spendZeroConfChange fuel wtx trusted
  let bucket : Option Bucket :=
    if s.isTxImmatureCoinBase wtx && wtx.isConfirmed then some .immature
    else if isTrusted && minDepth ≤ s.getTxDepthInMainChain wtx then some .trusted
    else if !isTrusted && wtx.inMempool then some .untrustedPending
    else none
  let counted := match s.howSpent outpoint with
    | .confirmed | .mempool => none
    | .nonMempool => if includeNonmempool then bucket else none
    | .unspent => bucket
  some (counted, trusted)

/-- The loop of `GetBalance` over the outputs of the wallet, in the order in which they are given:
what each of them counts towards. -/
def getBalanceLoop (s : TxStore) (spendZeroConfChange : Bool) (fuel : Nat) (minDepth : Int)
    (includeNonmempool : Bool) :
    List COutPoint → Finset Txid → Option (List (COutPoint × Option Bucket))
  | [], _ => some []
  | outpoint :: rest, trusted =>
    match s.mapWallet outpoint.hash with
    | none => getBalanceLoop s spendZeroConfChange fuel minDepth includeNonmempool rest trusted
    | some wtx => do
      let (bucket, trusted) ← s.balanceBucket P isMine spendZeroConfChange fuel minDepth
        includeNonmempool wtx outpoint trusted
      let counted ← getBalanceLoop s spendZeroConfChange fuel minDepth
        includeNonmempool rest trusted
      some ((outpoint, bucket) :: counted)

variable {P isMine} {s : TxStore} {spendZeroConfChange : Bool}

/-! ### Transactions in conflict -/

/-- Among the trusted transactions there is none in conflict with a block. -/
def NoneConflicted (s : TxStore) (trusted : Finset Txid) : Prop :=
  ∀ id ∈ trusted, ∀ wtx, s.mapWallet id = some wtx → wtx.isBlockConflicted = false

/-- Every transaction of the store is stored under its own identifier. -/
def Keyed (P : Primitives) (s : TxStore) : Prop :=
  ∀ id wtx, s.mapWallet id = some wtx → wtx.tx.getHash P = id

/-- What judging a transaction must do: trust nothing in conflict, neither the transaction nor a
parent of it. -/
private def Sound (P : Primitives) (s : TxStore)
    (judge : CWalletTx → Finset Txid → Option (Bool × Finset Txid)) : Prop :=
  ∀ wtx trusted ok trusted', s.mapWallet (wtx.tx.getHash P) = some wtx → s.NoneConflicted trusted →
    judge wtx trusted = some (ok, trusted') →
    s.NoneConflicted trusted' ∧ (ok = true → wtx.isBlockConflicted = false)

variable {trusted trusted' : Finset Txid} {wtx : CWalletTx} {outpoint : COutPoint}
  {bucket : Option Bucket}

private theorem inputsTrusted_sound (hkeyed : s.Keyed P)
    {judge : CWalletTx → Finset Txid → Option (Bool × Finset Txid)} (hjudge : Sound P s judge)
    {vin : List CTxIn} {ok : Bool} (htrusted : s.NoneConflicted trusted)
    (h : s.inputsTrusted P isMine judge vin trusted = some (ok, trusted')) :
    s.NoneConflicted trusted' := by
  induction vin generalizing trusted with
  | nil =>
    cases h
    exact htrusted
  | cons txin vin ih =>
    unfold inputsTrusted at h
    split at h
    · cases h
      exact htrusted
    next parent hparent =>
      split at h
      · cases h
        exact htrusted
      split at h
      · split at h
        · exact ih htrusted h
        have hself : s.mapWallet (parent.tx.getHash P) = some parent := by
          rw [hkeyed _ _ hparent]
          exact hparent
        split at h
        · cases h
        next t hfalse =>
          cases h
          exact (hjudge parent trusted false _ hself htrusted hfalse).1
        next t htrue =>
          obtain ⟨ht, hparentOk⟩ := hjudge parent trusted true t hself htrusted htrue
          refine ih ?_ h
          -- the parent that is noted was found not to be in conflict
          intro id hid wtx hwtx
          obtain rfl | hid := Finset.mem_insert.mp hid
          · rw [hself] at hwtx
            cases hwtx
            exact hparentOk rfl
          · exact ht id hid wtx hwtx
      · cases h
        exact htrusted

private theorem cachedTxIsTrusted_sound (hkeyed : s.Keyed P) (fuel : Nat) :
    Sound P s (s.cachedTxIsTrusted P isMine spendZeroConfChange fuel) := by
  induction fuel with
  | zero =>
    intro wtx trusted ok trusted' _ _ h
    cases h
  | succ fuel ih =>
    intro wtx trusted ok trusted' hself htrusted h
    unfold cachedTxIsTrusted at h
    split at h
    next hmem =>
      cases h
      exact ⟨htrusted, fun _ => htrusted _ hmem wtx hself⟩
    split at h
    next hconfirmed =>
      cases h
      refine ⟨htrusted, fun _ => ?_⟩
      cases hstate : wtx.state with
      | confirmed => simp [CWalletTx.isBlockConflicted, hstate]
      | _ => simp [CWalletTx.isConfirmed, hstate] at hconfirmed
    split at h
    next hconflicted =>
      cases h
      exact ⟨htrusted, fun hok => by cases hok⟩
    rename_i hconflicted
    refine ⟨?_, fun _ => Bool.eq_false_iff.mpr hconflicted⟩
    split at h
    · cases h
      exact htrusted
    split at h
    · cases h
      exact htrusted
    · exact inputsTrusted_sound hkeyed ih htrusted h

variable {fuel : Nat} {minDepth : Int} {includeNonmempool : Bool}

private theorem balanceBucket_sound (hkeyed : s.Keyed P)
    (hself : s.mapWallet outpoint.hash = some wtx) (htrusted : s.NoneConflicted trusted)
    (h : s.balanceBucket P isMine spendZeroConfChange fuel minDepth includeNonmempool wtx outpoint
      trusted = some (bucket, trusted')) :
    s.NoneConflicted trusted' ∧ (wtx.isBlockConflicted → bucket = none) := by
  have hself' : s.mapWallet (wtx.tx.getHash P) = some wtx := by rw [hkeyed _ _ hself, hself]
  obtain ⟨⟨ok, t⟩, hjudge, hrest⟩ := bind_eq_some_iff.mp h
  obtain ⟨rfl, rfl⟩ := Prod.mk.inj (some.inj hrest)
  obtain ⟨ht, hok⟩ := cachedTxIsTrusted_sound hkeyed fuel wtx trusted ok t hself' htrusted hjudge
  refine ⟨ht, fun hconflicted => ?_⟩
  have hfalse : ok = false := by
    refine Bool.eq_false_iff.mpr fun htrue => ?_
    rw [hok htrue] at hconflicted
    cases hconflicted
  have hstate : wtx.isConfirmed = false ∧ wtx.inMempool = false := by
    cases hs : wtx.state with
    | blockConflicted => simp [CWalletTx.isConfirmed, CWalletTx.inMempool, hs]
    | _ => simp [CWalletTx.isBlockConflicted, hs] at hconflicted
  simp only [hfalse, hstate.1, hstate.2, Bool.and_false, Bool.false_and, Bool.false_eq_true,
    if_false, ite_self]
  cases s.howSpent outpoint <;> rfl

/-- `GetBalance` counts no output of a transaction in conflict with a block, neither as trusted nor
as pending. -/
theorem getBalanceLoop_conflicted (hkeyed : s.Keyed P) {outpoints : List COutPoint}
    {counted : List (COutPoint × Option Bucket)} (htrusted : s.NoneConflicted trusted)
    (h : s.getBalanceLoop P isMine spendZeroConfChange fuel minDepth includeNonmempool outpoints
      trusted = some counted) (hmem : (outpoint, bucket) ∈ counted)
    (hwtx : s.mapWallet outpoint.hash = some wtx) (hconflicted : wtx.isBlockConflicted) :
    bucket = none := by
  induction outpoints generalizing trusted counted with
  | nil =>
    cases h
    simp at hmem
  | cons o rest ih =>
    unfold getBalanceLoop at h
    split at h
    · exact ih htrusted h hmem
    next wtx' hwtx' =>
      obtain ⟨⟨b, t⟩, hbucket, hrest⟩ := bind_eq_some_iff.mp h
      obtain ⟨counted', hloop, hcons⟩ := bind_eq_some_iff.mp hrest
      cases hcons
      obtain ⟨ht, hnone⟩ := balanceBucket_sound hkeyed hwtx' htrusted hbucket
      obtain heq | hmem := List.mem_cons.mp hmem
      · cases heq
        rw [hwtx] at hwtx'
        cases hwtx'
        exact hnone hconflicted
      · exact ih ht hloop hmem

end TxStore

end Tessera.Wallet
