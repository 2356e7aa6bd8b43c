import Tessera.Script.Verify

/-!
# Transactions

`primitives/transaction.h` and `consensus/amount.h`: outpoints, inputs, outputs and transactions
with the serialization that identifies them. `CTransaction` and `CMutableTransaction` have the same
data here, since a value cannot change behind a cached hash.
-/

namespace Tessera.Tx

open Script

abbrev CAmount := Int

def coin : CAmount := 100000000

def maxMoney : CAmount := 21000000 * coin

def moneyRange (nValue : CAmount) : Bool := 0 ≤ nValue && nValue ≤ maxMoney

theorem moneyRange_iff {n : Int} : moneyRange n ↔ 0 ≤ n ∧ n ≤ 2100000000000000 := by
  simp only [moneyRange, Bool.and_eq_true, decide_eq_true_eq]
  exact Iff.rfl

abbrev Txid := Uint256

structure COutPoint where
  hash : Txid
  n : UInt32
  deriving DecidableEq

def COutPoint.nullIndex : UInt32 := 0xffffffff

def COutPoint.isNull (o : COutPoint) : Bool := o.hash.isNull && o.n == nullIndex

structure CTxIn where
  prevout : COutPoint
  scriptSig : CScript
  nSequence : UInt32
  scriptWitness : CScriptWitness
  deriving DecidableEq

def CTxIn.sequenceFinal : UInt32 := 0xffffffff

structure CTxOut where
  nValue : CAmount
  scriptPubKey : CScript
  deriving DecidableEq

/-- The output that `CTxOut()` builds. -/
def CTxOut.null : CTxOut := ⟨-1, []⟩

structure CTransaction where
  vin : List CTxIn
  vout : List CTxOut
  version : UInt32
  nLockTime : UInt32
  deriving DecidableEq

/-! ### Serialization -/

/-- A signed 64-bit integer in two's complement. -/
def serializeInt64 (n : Int) : Bytes := writeLE 8 (n % 2 ^ 64).toNat

/-- An unsigned 32-bit integer. -/
def serializeUInt32 (n : UInt32) : Bytes := writeLE 4 n.toNat

/-- A byte vector behind its length. -/
def serializeBytes (bs : Bytes) : Bytes := writeCompactSize bs.length ++ bs

/-- A vector behind its length. -/
def serializeVector {α : Type} (f : α → Bytes) (xs : List α) : Bytes :=
  writeCompactSize xs.length ++ xs.flatMap f

def COutPoint.serialize (o : COutPoint) : Bytes := o.hash.data ++ serializeUInt32 o.n

/-- The serialization of `CTxIn`, which leaves the witness out. -/
def CTxIn.serialize (txin : CTxIn) : Bytes :=
  txin.prevout.serialize ++ serializeBytes txin.scriptSig ++ serializeUInt32 txin.nSequence

def CTxOut.serialize (txout : CTxOut) : Bytes :=
  serializeInt64 txout.nValue ++ serializeBytes txout.scriptPubKey

namespace CTransaction

def hasWitness (tx : CTransaction) : Bool := tx.vin.any fun txin => !txin.scriptWitness.isEmpty

def isCoinBase (tx : CTransaction) : Bool :=
  match tx.vin with
  | [txin] => txin.prevout.isNull
  | _ => false

def serialize (allowWitness : Bool) (tx : CTransaction) : Bytes :=
  let flags := allowWitness && tx.hasWitness
  serializeUInt32 tx.version ++ (if flags then serializeVector CTxIn.serialize [] ++ [1] else []) ++
    serializeVector CTxIn.serialize tx.vin ++
    serializeVector CTxOut.serialize tx.vout ++
    (if flags then tx.vin.flatMap fun txin => serializeVector serializeBytes txin.scriptWitness
      else []) ++
    serializeUInt32 tx.nLockTime

/-- `CTransaction::GetHash`: the hash of the serialization without witnesses. -/
def getHash (P : Primitives) (tx : CTransaction) : Txid := Tessera.hash P (tx.serialize false)

end CTransaction

end Tessera.Tx
