import Tessera.Validation.BlockRead

/-!
# Compact blocks

`blockencodings.h` and `blockencodings.cpp`: a block is announced by its header, short ids of its
transactions and some transactions in full, and put together again from the mempool, some extra
transactions and those that are requested.

The hasher behind the short ids and the sizes of the buckets of an `unordered_map` are parameters.
The offset with which short ids are spread around the transactions that are given in full is a
`uint16_t` in the source. It is a natural number here: it is at most the number of those
transactions, and what can be read has fewer than `2 ^ 16` of them.
-/

namespace Tessera.Net

open Lib Tx Validation

def maxProtocolMessageLength : Nat := 32000000

def minSerializableTransactionWeight : Nat := witnessScaleFactor * 10

/-- The largest `uint16_t`. -/
def uint16Max : Nat := 65535

/-- `CBlockHeader::IsNull`. -/
def isNullHeader (header : CBlockHeader) : Bool := header.nBits == 0

/-- `CTransaction::IsNull`. -/
def isNullTx (tx : CTransaction) : Bool := tx.vin.isEmpty && tx.vout.isEmpty

/-! ### Messages -/

structure PrefilledTransaction where
  index : UInt16
  tx : CTransaction
  deriving DecidableEq

/-- The salted hasher of a compact block: it depends on the header and the nonce. -/
abbrev ShortIdHasher := CBlockHeader → UInt64 → Uint256 → UInt64

structure CBlockHeaderAndShortTxIDs where
  header : CBlockHeader
  nonce : UInt64
  shorttxids : List Nat
  prefilledtxn : List PrefilledTransaction
  deriving DecidableEq

namespace PrefilledTransaction

def serialize (p : PrefilledTransaction) : Bytes :=
  writeCompactSize p.index.toNat ++ p.tx.serialize true

/-- Read an index and a transaction. -/
def unserialize : ByteReader PrefilledTransaction := do
  let index ← readCompactSize
  Reader.check (decide (index ≤ uint16Max)) "CompactSize exceeds limit of type"
  let tx ← CTransaction.unserialize true
  return ⟨UInt16.ofNat index, tx⟩

end PrefilledTransaction

namespace CBlockHeaderAndShortTxIDs

variable (hasher : ShortIdHasher)

/-- The low six bytes of what the hasher of a header and a nonce gives. -/
def shortID (header : CBlockHeader) (nonce : UInt64) (wtxid : Uint256) : Nat :=
  (hasher header nonce wtxid).toNat % 2 ^ 48

def getShortID (c : CBlockHeaderAndShortTxIDs) (wtxid : Uint256) : Nat :=
  shortID hasher c.header c.nonce wtxid

/-- The constructor from a block. It reads the first transaction, so a block without one is not
defined. -/
def ofBlock (P : Primitives) (hasher : ShortIdHasher) (block : CBlock) (nonce : UInt64) :
    Option CBlockHeaderAndShortTxIDs :=
  match block.vtx with
  | [] => none
  | coinbase :: rest => some
    { header := block.header
      nonce := nonce
      shorttxids := rest.map fun tx => shortID hasher block.header nonce (getWitnessHash P tx)
      prefilledtxn := [⟨0, coinbase⟩] }

variable (c : CBlockHeaderAndShortTxIDs)

def blockTxCount : Nat := c.shorttxids.length + c.prefilledtxn.length

def serialize : Bytes :=
  c.header.serialize ++ writeLE 8 c.nonce.toNat ++ serializeVector (writeLE 6) c.shorttxids ++
    serializeVector PrefilledTransaction.serialize c.prefilledtxn

/-- What is read, before the number of transactions is checked. -/
def unserializeFields : ByteReader CBlockHeaderAndShortTxIDs := do
  let header ← CBlockHeader.unserialize
  let nonce ← readInt 8
  let shorttxids ← readVector (readInt 6)
  let prefilledtxn ← readVector PrefilledTransaction.unserialize
  return ⟨header, UInt64.ofNat nonce, shorttxids, prefilledtxn⟩

/-- Read a compact block. -/
def unserialize : ByteReader CBlockHeaderAndShortTxIDs := do
  let c ← unserializeFields
  Reader.check (decide (c.blockTxCount ≤ uint16Max)) "indexes overflowed 16 bits"
  return c

end CBlockHeaderAndShortTxIDs

/-! ### Putting a block together -/

inductive ReadStatus where
  | ok
  | invalid
  | failed
  deriving DecidableEq

/-- `PartiallyDownloadedBlock`, without the two counters that are only logged. -/
structure PartiallyDownloadedBlock where
  header : CBlockHeader
  txnAvailable : List (Option CTransaction)
  mempoolCount : Nat
  deriving DecidableEq

/-- `CBlockHeader::SetNull`. -/
def nullBlockHeader : CBlockHeader := ⟨0, .null 32, .null 32, 0, 0, 0⟩

namespace PartiallyDownloadedBlock

/-- A block of which nothing is known. -/
def empty : PartiallyDownloadedBlock := ⟨nullBlockHeader, [], 0⟩

/-- The loop over the transactions that are given in full: whether they are valid, and what is there
then. There are `i` before them, and the last of these is at the position `last`. -/
def fillPrefilled (nShort : Nat) : Nat → Int → List PrefilledTransaction →
    List (Option CTransaction) → Bool × List (Option CTransaction)
  | _, _, [], available => (true, available)
  | i, last, p :: rest, available =>
    if isNullTx p.tx then (false, available)
    else
      let last := last + p.index.toNat + 1
      if (uint16Max : Int) < last then (false, available)
      else if nShort + i < last.toNat then (false, available)
      else fillPrefilled nShort (i + 1) last rest (available.set last.toNat (some p.tx))

/-- The offset at which a position is free: one more for every transaction that is already there. -/
def nextFree : List (Option CTransaction) → Nat → Nat
  | some _ :: rest, offset => nextFree rest (offset + 1)
  | _, offset => offset

abbrev ShortIdMap := List (Nat × Nat)

/-- Insert a position, which is a `uint16_t`. -/
def ShortIdMap.insert (m : ShortIdMap) (id position : Nat) : ShortIdMap :=
  (id, position % 2 ^ 16) :: m.filter fun p => p.1 != id

/-- The loop over the short ids: the map, or nothing if a bucket gets too large. -/
def mapShortIds (bucketSize : ShortIdMap → Nat → Nat) (available : List (Option CTransaction)) :
    Nat → Nat → List Nat → ShortIdMap → Option ShortIdMap
  | _, _, [], m => some m
  | i, offset, id :: ids, m =>
    let offset := nextFree (available.drop (i + offset)) offset
    let m := ShortIdMap.insert m id (i + offset)
    if 12 < bucketSize m id then none
    else mapShortIds bucketSize available (i + 1) offset ids m

/-- What has been found so far: the transactions, at which positions one was found at all, and how
many are there. -/
structure Found where
  available : List (Option CTransaction)
  have_ : List Bool
  count : Nat

/-- Consider a transaction for the position of its short id. If there is one already, then it stays
only if `same` says so. -/
def consider (same : CTransaction → CTransaction → Bool) (m : ShortIdMap) (id : Nat)
    (tx : CTransaction) (f : Found) : Found :=
  match m.lookup id with
  | none => f
  | some position =>
    if !f.have_.getD position false then
      ⟨f.available.set position (some tx), f.have_.set position true, f.count + 1⟩
    else
      match f.available.getD position none with
      | some found =>
        if same found tx then f else ⟨f.available.set position none, f.have_, f.count - 1⟩
      | none => f

/-- The loop over transactions, which stops when all are there. -/
def considerAll (same : CTransaction → CTransaction → Bool) (shortId : Uint256 → Nat)
    (m : ShortIdMap) : List (Uint256 × CTransaction) → Found → Found
  | [], f => f
  | (wtxid, tx) :: rest, f =>
    let f := consider same m (shortId wtxid) tx f
    if f.count = m.length then f else considerAll same shortId m rest f

variable (P : Primitives) (hasher : ShortIdHasher) (bucketSize : ShortIdMap → Nat → Nat)
  (c : CBlockHeaderAndShortTxIDs) (pool extra : List (Uint256 × CTransaction))

/-- The part of `InitData` that looks for transactions, in the mempool and then among the extra
ones. A second one for a position takes the first away again, unless the first is the same as an
extra one. The count that ends the loops early is not reset when the object is used again. -/
def findTransactions
    (m : ShortIdMap) (available : List (Option CTransaction)) (mempoolCount : Nat) : Found :=
  let start : Found := ⟨available, List.replicate available.length false, mempoolCount⟩
  let inPool := considerAll (fun _ _ => false) (c.getShortID hasher) m pool start
  considerAll (fun found tx => getWitnessHash P found == getWitnessHash P tx)
    (c.getShortID hasher) m extra inPool

variable (b : PartiallyDownloadedBlock)

def initData : ReadStatus × PartiallyDownloadedBlock :=
  if isNullHeader c.header || (c.shorttxids.isEmpty && c.prefilledtxn.isEmpty) then (.invalid, b)
  else if maxBlockWeight / minSerializableTransactionWeight < c.blockTxCount then (.invalid, b)
  else if !isNullHeader b.header || !b.txnAvailable.isEmpty then (.invalid, b)
  else
    let prefilled := fillPrefilled c.shorttxids.length 0 (-1) c.prefilledtxn
      (List.replicate c.blockTxCount none)
    -- from here on the header and what was found stay, also if the rest fails
    let b : PartiallyDownloadedBlock := ⟨c.header, prefilled.2, b.mempoolCount⟩
    if !prefilled.1 then (.invalid, b)
    else
      match mapShortIds bucketSize prefilled.2 0 0 c.shorttxids [] with
      | none => (.failed, b)
      | some m =>
        if m.length ≠ c.shorttxids.length then (.failed, b)
        else
          let found := findTransactions P hasher c pool extra m prefilled.2 b.mempoolCount
          (.ok, ⟨c.header, found.available, found.count⟩)

/-- `IsTxAvailable`, which asserts that there is such a position once there is a header. -/
def isTxAvailable (index : Nat) : Option Bool :=
  if isNullHeader b.header then some false
  else b.txnAvailable[index]?.map Option.isSome

/-- The loop of `FillBlock`: the transactions, and those that are left over. -/
def fillMissing : List (Option CTransaction) → List CTransaction →
    Option (List CTransaction × List CTransaction)
  | [], missing => some ([], missing)
  | some tx :: rest, missing => (fillMissing rest missing).map fun r => (tx :: r.1, r.2)
  | none :: _, [] => none
  | none :: rest, tx :: missing => (fillMissing rest missing).map fun r => (tx :: r.1, r.2)

def isBlockMutated (block : CBlock) (checkWitnessRoot : Bool) : Bool :=
  match checkMerkleRoot P block with
  | .error _ => true
  | .ok _ =>
    if !block.vtx.head?.any CTransaction.isCoinBase then
      block.vtx.any fun tx => (tx.serialize false).length == 64
    else
      match checkWitnessMalleation P block checkWitnessRoot with
      | .error _ => true
      | .ok _ => false

/-- What is left of the transactions when there were too few missing ones: those before the first
gap that could not be filled have been moved out. -/
def movedOut : List (Option CTransaction) → List CTransaction → List (Option CTransaction)
  | [], _ => []
  | some _ :: rest, missing => none :: movedOut rest missing
  | none :: rest, [] => none :: rest
  | none :: rest, _ :: missing => none :: movedOut rest missing

/-- `FillBlock`, with the block if it is a success. -/
def fillBlock (b : PartiallyDownloadedBlock) (vtxMissing : List CTransaction)
    (segwitActive : Bool) : (ReadStatus × Option CBlock) × PartiallyDownloadedBlock :=
  if isNullHeader b.header then ((.invalid, none), b)
  else
    match fillMissing b.txnAvailable vtxMissing with
    | none => ((.invalid, none), { b with txnAvailable := movedOut b.txnAvailable vtxMissing })
    | some (vtx, rest) =>
      -- the block cannot be filled again, whatever comes next
      let b' : PartiallyDownloadedBlock := ⟨nullBlockHeader, [], b.mempoolCount⟩
      if !rest.isEmpty then ((.invalid, none), b')
      else if isBlockMutated P ⟨b.header, vtx⟩ segwitActive then ((.failed, none), b')
      else ((.ok, some ⟨b.header, vtx⟩), b')

end PartiallyDownloadedBlock

end Tessera.Net
