import Tessera.Net.CompactBlock
import Tessera.Validation.Malleation

/-!
# Relaying compact blocks

A block that has passed `CheckBlock` is written as a compact block, read, and put together again
from what a node has and what it asks for. This works exactly if the block has fewer than `2 ^ 16`
transactions, its compact form fits into a message, and its witnesses pass `CheckWitnessMalleation`.
Whatever is sent, a block that is put together has the header that was announced and the merkle root
of that header.
-/

namespace Tessera.Net

open Lib Tx Validation CBlockHeaderAndShortTxIDs List

variable {candidates : List (Uint256 × CTransaction)} {c : CBlockHeaderAndShortTxIDs}
  {vtx : List CTransaction} {available : List (Option CTransaction)} {m : ShortIdMap}

/-! ### Writing and reading -/

private theorem reads_prefilled {p : PrefilledTransaction}
    (h : Reads (CTransaction.unserialize true) (p.tx.serialize true) p.tx) :
    Reads PrefilledTransaction.unserialize p.serialize p := by
  have hlt := p.index.toNat_lt
  have hcheck : decide (p.index.toNat ≤ uint16Max) :=
    decide_eq_true (by simp only [uint16Max]; omega)
  have hread : Reads PrefilledTransaction.unserialize _ _ :=
    (reads_compactSize (by simp only [maxSize]; omega)).bind
      ((reads_check hcheck _).bind (h.bind_pure _))
  simpa [PrefilledTransaction.serialize] using hread

namespace CBlockHeaderAndShortTxIDs

private theorem reads_compactBlock (hheader : c.header.InRange)
    (hids : ∀ id ∈ c.shorttxids, id < 256 ^ 6)
    (htxs : ∀ p ∈ c.prefilledtxn, Reads (CTransaction.unserialize true) (p.tx.serialize true) p.tx)
    (hcount : c.blockTxCount ≤ uint16Max) : Reads unserialize c.serialize c := by
  have hcheck := decide_eq_true hcount
  simp only [blockTxCount, uint16Max] at hcount
  have hprefilled : Reads (readVector PrefilledTransaction.unserialize)
      (serializeVector PrefilledTransaction.serialize c.prefilledtxn) c.prefilledtxn :=
    reads_vector (by simp only [maxSize]; omega) fun p hp => reads_prefilled (htxs p hp)
  have hshort : Reads (readVector (readInt 6)) (serializeVector (writeLE 6) c.shorttxids)
      c.shorttxids :=
    reads_vector (by simp only [maxSize]; omega) fun id hid => reads_int (hids id hid)
  have hnonce : Reads (readInt 8) (writeLE 8 c.nonce.toNat) c.nonce.toNat :=
    reads_int c.nonce.toNat_lt
  have hfields : Reads unserializeFields _ _ :=
    (reads_header hheader).bind (hnonce.bind (hshort.bind (hprefilled.bind_pure _)))
  rw [UInt64.ofNat_toNat] at hfields
  have hread : Reads unserialize _ c := hfields.bind ((reads_check hcheck _).bind (reads_pure c))
  simpa [serialize] using hread

private theorem blockTxCount_of_unserialize {bs rest : Bytes}
    (h : unserialize.run bs = .ok (c, rest)) : c.blockTxCount ≤ uint16Max := by
  obtain ⟨⟨c', bs'⟩, -, h⟩ := bind_eq_ok_iff.mp h
  by_cases hcount : c'.blockTxCount ≤ uint16Max
  · simp only [hcount] at h
    cases h
    exact hcount
  · simp only [hcount] at h
    cases h

end CBlockHeaderAndShortTxIDs

/-! ### What is available -/

/-- What is available at a position is the transaction of the block there. -/
structure Fits (vtx : List CTransaction) (available : List (Option CTransaction)) : Prop where
  length : available.length = vtx.length
  agrees : ∀ (i : Nat) (tx : CTransaction), available[i]? = some (some tx) → vtx[i]? = some tx

namespace Fits

variable {i : Nat} {tx : CTransaction}

theorem set {o : Option CTransaction} (h : Fits vtx available) (ho : ∀ tx ∈ o, vtx[i]? = some tx) :
    Fits vtx (available.set i o) := by
  refine ⟨by rw [length_set, h.length], fun j tx hj => ?_⟩
  rw [getElem?_set] at hj
  split at hj
  next hij =>
    split at hj
    · rw [← hij, ho tx (Option.some.inj hj)]
    · cases hj
  · exact h.agrees j tx hj

/-- The rest of what is available is that of the rest of the block. -/
theorem tail {o : Option CTransaction} (h : Fits (tx :: vtx) (o :: available)) :
    Fits vtx available :=
  ⟨by simpa using h.length, fun i tx' hi => by simpa using h.agrees (i + 1) tx' (by simpa using hi)⟩

/-- Nothing at all, but the first transaction. -/
theorem first (tx : CTransaction) (rest : List CTransaction) :
    Fits (tx :: rest) (some tx :: List.replicate rest.length none) := by
  refine ⟨by simp, fun i tx' hi => ?_⟩
  cases i with
  | zero => simpa using hi
  | succ i =>
    rw [getElem?_cons_succ, getElem?_replicate] at hi
    split at hi <;> simp at hi

end Fits

namespace PartiallyDownloadedBlock

section Search

variable {same : CTransaction → CTransaction → Bool} {shortId : Uint256 → Nat} {f : Found}

/-- A candidate that belongs where its short id points to does no harm. -/
theorem consider_fits {id : Nat} {tx : CTransaction} (hf : Fits vtx f.available)
    (hm : ∀ position, m.lookup id = some position → vtx[position]? = some tx) :
    Fits vtx (consider same m id tx f).available := by
  unfold consider
  split
  · exact hf
  next position hposition =>
    split
    · exact hf.set fun _ htx => Option.some.inj htx ▸ hm position hposition
    -- a second match either is ignored or takes the first away
    split
    · split
      · exact hf
      · exact hf.set (by simp)
    · exact hf

private theorem considerAll_fits
    (hf : Fits vtx f.available)
    (hm : ∀ p ∈ candidates, ∀ position, m.lookup (shortId p.1) = some position →
      vtx[position]? = some p.2) : Fits vtx
        (considerAll same shortId m candidates f).available := by
  induction candidates generalizing f with
  | nil => exact hf
  | cons p rest ih =>
    have hstep : Fits vtx (consider same m (shortId p.1) p.2 f).available :=
      consider_fits hf (hm p mem_cons_self)
    unfold considerAll
    dsimp only
    split
    · exact hstep
    · exact ih hstep fun q hq => hm q (mem_cons_of_mem p hq)

end Search

/-! ### The positions of the short ids -/

/-- No bucket of the map has more than twelve entries when a short id has been inserted. -/
def NoBucketOverflow (bucketSize : ShortIdMap → Nat → Nat) (ids : List Nat) : Prop :=
  ∀ done id todo, ids = done ++ id :: todo → bucketSize ((done ++ [id]).zipIdx 1).reverse id ≤ 12

/-- Only the coinbase is in the way: every other position is one more than that of the short id. -/
theorem nextFree_first (coinbase : CTransaction) (n i offset : Nat)
    (h : offset = 1 ∨ (offset = 0 ∧ i = 0)) :
    nextFree ((some coinbase :: List.replicate n none).drop (i + offset)) offset = 1 := by
  have hfree : ∀ k, nextFree (replicate k none) 1 = 1 := by
    intro k
    cases k <;> rfl
  rcases h with rfl | ⟨rfl, rfl⟩
  · rw [drop_succ_cons, drop_replicate]
    exact hfree _
  · exact hfree n

variable {id position : Nat} {checkWitnessRoot : Bool}

private theorem insert_fresh (hid : ∀ p ∈ m, p.1 ≠ id)
    (hposition : position < 2 ^ 16) : ShortIdMap.insert m id position = (id, position) :: m := by
  have hfilter : m.filter (fun p => p.1 != id) = m :=
    filter_eq_self.mpr fun p hp => by simpa using hid p hp
  rw [ShortIdMap.insert, hfilter, Nat.mod_eq_of_lt hposition]

/-- The loop over the short ids `todo` when those of `done` are in the map. -/
theorem mapShortIds_eq {bucketSize : ShortIdMap → Nat → Nat} {coinbase : CTransaction} {n : Nat}
    (todo : List Nat) : ∀ (done : List Nat) (offset : Nat),
    (offset = 1 ∨ (offset = 0 ∧ done.length = 0)) →
    (done ++ todo).Nodup → (done ++ todo).length < uint16Max → NoBucketOverflow bucketSize
      (done ++ todo) →
    mapShortIds bucketSize (some coinbase :: List.replicate n none) done.length offset todo
      (done.zipIdx 1).reverse = some ((done ++ todo).zipIdx 1).reverse := by
  induction todo with
  | nil =>
    intro done offset _ _ _ _
    rw [mapShortIds, append_nil]
  | cons id todo ih =>
    intro done offset hoffset hnodup hlength hbuckets
    have hassoc : done ++ id :: todo = (done ++ [id]) ++ todo := by simp
    have hfresh : ∀ p ∈ (done.zipIdx 1).reverse, p.1 ≠ id := by
      intro p hp hid
      have hmem : id ∈ done := hid ▸ fst_mem_of_mem_zipIdx (mem_reverse.mp hp)
      exact (nodup_append.mp hnodup).2.2 id hmem id mem_cons_self rfl
    have hlt : done.length + 1 < 2 ^ 16 := by
      simp only [uint16Max, length_append] at hlength
      omega
    have hzip : (id, done.length + 1) :: (done.zipIdx 1).reverse =
        ((done ++ [id]).zipIdx 1).reverse := by
      simp [zipIdx_append, add_comm]
    have hbucket := hbuckets done id todo rfl
    rw [mapShortIds, nextFree_first coinbase n _ _ hoffset]
    rw [insert_fresh hfresh hlt, hzip, if_neg (not_lt.mpr hbucket)]
    have hnext := ih (done ++ [id]) 1 (.inl rfl) (hassoc ▸ hnodup) (hassoc ▸ hlength)
      (hassoc ▸ hbuckets)
    rw [length_append, length_singleton] at hnext
    rw [hnext, ← hassoc]

private theorem lookup_zipIdx {ids : List Nat}
    (h : (ids.zipIdx 1).reverse.lookup id = some position) :
    ∃ i, position = i + 1 ∧ ids[i]? = some id := by
  obtain ⟨l₁, l₂, hsplit, -⟩ := lookup_eq_some_iff.mp h
  have hmem : (id, position) ∈ ids.zipIdx 1 := by
    rw [← mem_reverse, hsplit]
    simp
  obtain ⟨hle, -, hget⟩ := mem_zipIdx hmem
  refine ⟨position - 1, by omega, ?_⟩
  rw [hget]
  simp

/-! ### Filling the gaps -/

/-- The transactions of the block at the positions where `IsTxAvailable` is false. -/
def missingTxs (b : PartiallyDownloadedBlock) (vtx : List CTransaction) : List CTransaction :=
  (vtx.zipIdx.filter fun p => b.isTxAvailable p.2 == some false).map Prod.fst

/-- The transactions of `vtx` where nothing is available. -/
def gaps : List CTransaction → List (Option CTransaction) → List CTransaction
  | tx :: vtx, none :: available => tx :: gaps vtx available
  | _ :: vtx, some _ :: available => gaps vtx available
  | _, _ => []

private theorem gaps_eq (k : Nat) (whole : List (Option CTransaction))
    (hlength : available.length = vtx.length) (hwhole : whole.drop k = available) :
    ((vtx.zipIdx k).filter fun p => whole[p.2]?.map Option.isSome == some false).map Prod.fst =
      gaps vtx available := by
  induction vtx generalizing available k with
  | nil => simp [gaps]
  | cons tx vtx ih =>
    cases available with
    | nil => simp at hlength
    | cons o available =>
      -- the head of what is left is at the position `k` of the whole
      have hhead : whole[k]? = some o := by
        rw [← head?_drop, hwhole]
        rfl
      have htail : whole.drop (k + 1) = available := by
        rw [← tail_drop, hwhole]
        rfl
      have hrest := ih (k + 1) (by simpa using hlength) htail
      cases o with
      | none => simp [hhead, gaps, hrest]
      | some _ => simp [hhead, gaps, hrest]

variable {b : PartiallyDownloadedBlock} {block : CBlock} {header : CBlockHeader}

private theorem fillMissing_gaps
    (h : Fits vtx available) : fillMissing available (gaps vtx available) = some (vtx, []) := by
  induction vtx generalizing available with
  | nil => simp [length_eq_zero_iff.mp h.length, fillMissing, gaps]
  | cons tx vtx ih =>
    cases available with
    | nil => simpa using h.length
    | cons o available =>
      have hrest := ih h.tail
      cases o with
      | none => simp [fillMissing, gaps, hrest]
      | some tx' =>
        have htx : tx = tx' := by simpa using h.agrees 0 tx' rfl
        simp [fillMissing, gaps, hrest, htx]

private theorem fillMissing_missingTxs (hheader : isNullHeader b.header = false)
    (h : Fits vtx b.txnAvailable) :
    fillMissing b.txnAvailable (missingTxs b vtx) = some (vtx, []) := by
  have hgaps : missingTxs b vtx = gaps vtx b.txnAvailable := by
    rw [← gaps_eq 0 b.txnAvailable h.length rfl]
    simp [missingTxs, isTxAvailable, hheader]
  rw [hgaps, fillMissing_gaps h]

/-! ### Blocks that are put together -/

variable {P : Primitives}

/-- A block with a coinbase and the merkle root of its header is mutated exactly in its witnesses.
-/
theorem isBlockMutated_eq_false_iff (hroot : checkMerkleRoot P block = .ok ())
    (hcoinbase : block.vtx.head?.any CTransaction.isCoinBase) :
    isBlockMutated P block checkWitnessRoot = false ↔
      checkWitnessMalleation P block checkWitnessRoot = .ok () := by
  simp only [isBlockMutated, hroot, hcoinbase]
  cases checkWitnessMalleation P block checkWitnessRoot with
  | error _ => simp
  | ok _ => simp

/-- Everything `FillBlock` can do. -/
theorem fillBlock_cases (b : PartiallyDownloadedBlock) (vtxMissing : List CTransaction)
    (segwitActive : Bool) :
    (∃ status b', fillBlock P b vtxMissing segwitActive = ((status, none), b') ∧ status ≠ .ok ∧
      (b'.header = b.header ∨ isNullHeader b'.header)) ∨
    (∃ vtx b', fillBlock P b vtxMissing segwitActive = ((.ok, some ⟨b.header, vtx⟩), b') ∧
      isNullHeader b'.header ∧ isNullHeader b.header = false ∧
      fillMissing b.txnAvailable vtxMissing = some (vtx, []) ∧
      isBlockMutated P ⟨b.header, vtx⟩ segwitActive = false) := by
  unfold fillBlock
  split
  · exact .inl ⟨_, _, rfl, by simp, .inl rfl⟩
  next hheader =>
    split
    · exact .inl ⟨_, _, rfl, by simp, .inl rfl⟩
    next vtx rest hfill =>
      split
      · exact .inl ⟨_, _, rfl, by simp, .inr rfl⟩
      next hrest =>
        have hnil : rest = [] := by simpa using hrest
        split
        · exact .inl ⟨_, _, rfl, by simp, .inr rfl⟩
        next hmutated =>
          exact .inr ⟨vtx, _, rfl, rfl, by simpa using hheader, hnil ▸ hfill, by
            simpa using hmutated⟩

/-! ### Whatever is sent -/

variable (P) in
/-- Fill the block again and again. -/
def fillAll (b : PartiallyDownloadedBlock) (calls : List (List CTransaction × Bool)) :
    PartiallyDownloadedBlock :=
  calls.foldl (fun b call => (fillBlock P b call.1 call.2).2) b

/-- The header is the announced one, or there is none. -/
def Announced (header : CBlockHeader) (b : PartiallyDownloadedBlock) : Prop :=
  b.header = header ∨ isNullHeader b.header = true

theorem Announced.fillBlock (h : Announced header b) (vtxMissing : List CTransaction)
    (segwitActive : Bool) : Announced header (fillBlock P b vtxMissing segwitActive).2 := by
  rcases fillBlock_cases (P := P) b vtxMissing segwitActive with
    ⟨_, b', heq, -, hkept | hnull⟩ | ⟨_, b', heq, hnull, -⟩
  · rw [heq, Announced, hkept]
    exact h
  · rw [heq]
    exact .inr hnull
  · rw [heq]
    exact .inr hnull

private theorem Announced.fillAll (h : Announced header b)
    (calls : List (List CTransaction × Bool)) : Announced header (fillAll P b calls) := by
  induction calls generalizing b with
  | nil => exact h
  | cons call calls ih => exact ih (h.fillBlock call.1 call.2)

private theorem announced_initData (hasher : ShortIdHasher) (bucketSize : ShortIdMap → Nat → Nat)
    (c : CBlockHeaderAndShortTxIDs) (pool extra : List (Uint256 × CTransaction)) :
    Announced c.header (initData P hasher bucketSize c pool extra empty).2 := by
  -- before the header is taken over there is none, and it stays from then on
  unfold initData
  split
  · exact .inr rfl
  split
  · exact .inr rfl
  split
  · exact .inr rfl
  dsimp only
  split
  · exact .inl rfl
  · split
    · exact .inl rfl
    · split <;> exact .inl rfl

/-- A block that was put together has the announced header and its merkle root. -/
theorem fillBlock_announced {b' : PartiallyDownloadedBlock}
    {vtxMissing : List CTransaction} {segwitActive : Bool} (h : Announced header b)
    (hfill : fillBlock P b vtxMissing segwitActive = ((.ok, some block), b')) :
    block.header = header ∧ checkMerkleRoot P block = .ok () := by
  rcases fillBlock_cases (P := P) b vtxMissing segwitActive with
    ⟨status, _, heq, hstatus, -⟩ | ⟨vtx, _, heq, -, hheader, -, hmutated⟩
  · rw [hfill] at heq
    simp only [Prod.mk.injEq] at heq
    exact absurd heq.1.1.symm hstatus
  · rw [hfill] at heq
    simp only [Prod.mk.injEq, Option.some.injEq, true_and] at heq
    rw [heq.1]
    constructor
    · rcases h with h | hnull
      · exact h
      · rw [hheader] at hnull
        cases hnull
    · unfold isBlockMutated at hmutated
      split at hmutated
      · cases hmutated
      · assumption

/-! ### An honest announcement -/

section Honest

variable {hasher : ShortIdHasher} {bucketSize : ShortIdMap → Nat → Nat}

/-- Candidates whose short id is that of a transaction of the block are that transaction. -/
def NoCollision (shortId : Uint256 → Nat) (wtxid : CTransaction → Uint256)
    (rest : List CTransaction) (candidates : List (Uint256 × CTransaction)) : Prop :=
  ∀ p ∈ candidates, ∀ tx ∈ rest, shortId p.1 = shortId (wtxid tx) → p.2 = tx

variable {rest : List CTransaction} {segwitActive : Bool}

theorem NoCollision.lookup {shortId : Uint256 → Nat} {wtxid : CTransaction → Uint256}
    (coinbase : CTransaction) (h : NoCollision shortId wtxid rest candidates) :
    ∀ p ∈ candidates, ∀ position,
      ((rest.map fun tx => shortId (wtxid tx)).zipIdx 1).reverse.lookup (shortId p.1) =
        some position → (coinbase :: rest)[position]? = some p.2 := by
  intro p hp position hposition
  obtain ⟨i, rfl, hid⟩ := lookup_zipIdx hposition
  rw [getElem?_map, Option.map_eq_some_iff] at hid
  obtain ⟨tx, htx, heq⟩ := hid
  rw [getElem?_cons_succ, htx, h p hp tx (mem_of_getElem? htx) heq.symm]

variable {pool extra : List (Uint256 × CTransaction)} {nonce : UInt64} {block : CBlock}

/-- `InitData` takes an honest announcement, and finds only transactions of the block. -/
theorem initData_honest {coinbase : CTransaction} (hprefilledtxn : c.prefilledtxn = [⟨0, coinbase⟩])
    (hids : c.shorttxids = rest.map fun tx => c.getShortID hasher (getWitnessHash P tx))
    (hheader : isNullHeader c.header = false) (hnull : isNullTx coinbase = false)
    (hcount : rest.length < uint16Max) (hnodup : c.shorttxids.Nodup)
    (hbuckets : NoBucketOverflow bucketSize c.shorttxids)
    (hforeign : NoCollision (c.getShortID hasher) (getWitnessHash P) rest (pool ++ extra)) :
    ∃ b, initData P hasher bucketSize c pool extra empty = (.ok, b) ∧ b.header = c.header ∧
      Fits (coinbase :: rest) b.txnAvailable := by
  have hlength : c.shorttxids.length = rest.length := by rw [hids, length_map]
  have hblockTxCount : c.blockTxCount = rest.length + 1 := by
    rw [blockTxCount, hlength, hprefilledtxn, length_singleton]
  have hmap : mapShortIds bucketSize (some coinbase :: replicate rest.length none) 0 0
      c.shorttxids [] = some (c.shorttxids.zipIdx 1).reverse :=
    mapShortIds_eq c.shorttxids [] 0 (.inr ⟨rfl, rfl⟩) hnodup (hlength.symm ▸ hcount) hbuckets
  have hfew : c.blockTxCount ≤ maxBlockWeight / minSerializableTransactionWeight := by
    simp only [maxBlockWeight, minSerializableTransactionWeight, witnessScaleFactor,
      uint16Max] at hcount ⊢
    omega
  have hlookup := hforeign.lookup coinbase
  rw [← hids] at hlookup
  have hsize : (c.shorttxids.zipIdx 1).reverse.length = c.shorttxids.length := by simp
  have hprefilled : fillPrefilled c.shorttxids.length 0 (-1) c.prefilledtxn
      (replicate c.blockTxCount none) = (true, some coinbase :: replicate rest.length none) := by
    rw [hblockTxCount, hprefilledtxn]
    simp [fillPrefilled, hnull, replicate_succ]
  rw [initData, hheader, hprefilled, if_neg (by simp [hprefilledtxn]),
    if_neg (not_lt.mpr hfew)]
  simp only [hmap, hsize, ne_eq]
  refine ⟨_, rfl, rfl, considerAll_fits (considerAll_fits (Fits.first coinbase rest) ?_) ?_⟩
  · exact fun p hp => hlookup p (mem_append_left extra hp)
  · exact fun p hp => hlookup p (mem_append_right pool hp)

/-- The size of the compact block of a block: header, nonce, short ids, and the coinbase with its
index. -/
def compactSize (block : CBlock) : Nat :=
  80 + 8 + ((writeCompactSize block.vtx.tail.length).length + 6 * block.vtx.tail.length) +
    (1 + 1 + (block.vtx.head?.elim 0 fun tx => (tx.serialize true).length))

variable (P hasher bucketSize) in
/-- The block is written as a message, read back, and put together from what is there and what is
missing. -/
def Relayed (block : CBlock) (nonce : UInt64) (pool extra : List (Uint256 × CTransaction))
    (segwitActive : Bool) : Prop :=
  ∃ c b, ofBlock P hasher block nonce = some c ∧ c.serialize.length ≤ maxProtocolMessageLength ∧
    unserialize.run c.serialize = .ok (c, []) ∧
    initData P hasher bucketSize c pool extra empty = (.ok, b) ∧
    (fillBlock P b (missingTxs b block.vtx) segwitActive).1 = (.ok, some block)

variable (P hasher) in
/-- The short ids of the transactions of a block, but the coinbase. -/
def blockShortIDs (block : CBlock) (nonce : UInt64) : List Nat :=
  block.vtx.tail.map fun tx => shortID hasher block.header nonce
    (getWitnessHash P tx)

private theorem length_flatMap_writeLE (n : Nat) (xs : List Nat) :
    (xs.flatMap (writeLE n)).length = n * xs.length := by
  induction xs with
  | nil => simp
  | cons x xs ih =>
    rw [flatMap_cons, length_append, writeLE_length, ih, length_cons]
    rw [mul_add, mul_one, add_comm]

private theorem length_serialize_ofBlock (hc : ofBlock P hasher block nonce = some c) :
    c.serialize.length = compactSize block := by
  obtain ⟨header, vtx⟩ := block
  cases vtx with
  | nil => exact absurd hc (by simp [ofBlock])
  | cons coinbase rest =>
    simp only [ofBlock, Option.some.injEq] at hc
    subst hc
    have hone : (writeCompactSize 1).length = 1 := by decide
    have hzero : (writeCompactSize (0 : UInt16).toNat).length = 1 := by decide
    simp only [serialize, compactSize, serializeVector, length_append,
      CBlockHeader.length_serialize, writeLE_length, length_flatMap_writeLE, length_map,
      flatMap_cons, flatMap_nil, length_singleton, PrefilledTransaction.serialize, tail_cons,
      head?_cons, Option.elim_some, length_nil]
    omega

private theorem isNullHeader_of_checkProofOfWork {params : Params} {hash : Uint256}
    (h : checkProofOfWork params hash header.nBits) : isNullHeader header = false := by
  by_contra hnull
  have hbits : header.nBits = 0 := by simpa [isNullHeader] using hnull
  have hzero : setCompact (0 : UInt32).toNat = (0, false, false) := by decide
  rw [hbits, checkProofOfWork, deriveTarget, hzero] at h
  exact absurd h (by simp)

variable (P hasher) in
private theorem ofBlock_spec (hspec : BlockChecked block) (nonce : UInt64) :
    ∃ c coinbase rest, ofBlock P hasher block nonce = some c ∧
      block.vtx = coinbase :: rest ∧ TxChecked coinbase ∧ coinbase.isCoinBase ∧
      c.header = block.header ∧ c.nonce = nonce ∧ c.shorttxids =
        blockShortIDs P hasher block nonce ∧ c.prefilledtxn = [⟨0, coinbase⟩] := by
  obtain ⟨coinbase, rest, hvtx, hcoinbase, -⟩ := hspec.coinbase
  have hchecked : TxChecked coinbase := hspec.checked coinbase (hvtx ▸ mem_cons_self)
  refine ⟨⟨block.header, nonce, blockShortIDs P hasher block nonce, [⟨0, coinbase⟩]⟩,
    coinbase, rest, ?_, hvtx, hchecked, hcoinbase, rfl, rfl, rfl, rfl⟩
  simp only [ofBlock, hvtx, blockShortIDs, tail_cons]

/-- A block that is relayed is within the limits, and its witnesses have been checked. -/
theorem Relayed.limits (hspec : BlockChecked block) (hroot : checkMerkleRoot P block = .ok ())
    (h : Relayed P hasher bucketSize block nonce pool extra segwitActive) :
    block.vtx.length ≤ uint16Max ∧ compactSize block ≤ maxProtocolMessageLength ∧
      checkWitnessMalleation P block segwitActive = .ok () := by
  obtain ⟨c, b, hc, hsize, hread, -, hfill⟩ := h
  obtain ⟨c', coinbase, rest, hc', hvtx, -, hcoinbase, -, -, hids, hprefilled⟩ :=
    ofBlock_spec P hasher hspec nonce
  obtain rfl := Option.some.inj (hc.symm.trans hc')
  refine ⟨?_, length_serialize_ofBlock hc ▸ hsize, ?_⟩
  · have hcount := blockTxCount_of_unserialize hread
    rw [blockTxCount, hids, hprefilled, blockShortIDs, length_map, hvtx] at hcount
    rw [hvtx]
    exact hcount
  · rcases fillBlock_cases (P := P) b (missingTxs b block.vtx) segwitActive with
      ⟨status, _, heq, hstatus, -⟩ | ⟨vtx, _, heq, -, -, -, hmutated⟩
    · rw [heq] at hfill
      exact absurd (congrArg Prod.fst hfill) hstatus
    · rw [heq] at hfill
      rw [Option.some.inj (congrArg Prod.snd hfill)] at hmutated
      exact (isBlockMutated_eq_false_iff hroot (by rw [hvtx]; exact hcoinbase)).mp hmutated

private theorem relayed_of_limits (hspec : BlockChecked block)
    (hroot : checkMerkleRoot P block = .ok ()) (hheader : isNullHeader block.header = false)
    (hrange : block.header.InRange) (hnodup : (blockShortIDs P hasher block nonce).Nodup)
    (hbuckets : NoBucketOverflow bucketSize (blockShortIDs P hasher block nonce))
    (hforeign : NoCollision (shortID hasher block.header nonce) (getWitnessHash P) block.vtx.tail
      (pool ++ extra))
    (hcount : block.vtx.length ≤ uint16Max) (hsize : compactSize block ≤ maxProtocolMessageLength)
    (hwitness : checkWitnessMalleation P block segwitActive = .ok ()) :
    Relayed P hasher bucketSize block nonce pool extra segwitActive := by
  obtain ⟨c, coinbase, rest, hc, hvtx, hchecked, hcoinbase, hcheader, hcnonce, hids, hprefilled⟩ :=
    ofBlock_spec P hasher hspec nonce
  have hlength := length_serialize_ofBlock hc
  have hrest : rest.length < uint16Max := by
    rw [hvtx] at hcount
    exact hcount
  have hblockTxCount : c.blockTxCount ≤ uint16Max := by
    rw [blockTxCount, hids, hprefilled, blockShortIDs, length_map, hvtx]
    exact hrest
  -- the coinbase is part of the message, so it is not too large to be read
  have hcoinbaseSize : (coinbase.serialize true).length ≤ maxSize := by
    simp only [compactSize, hvtx, head?_cons, Option.elim_some, maxProtocolMessageLength] at hsize
    simp only [maxSize]
    omega
  have hread : Reads unserialize c.serialize c := by
    refine reads_compactBlock (hcheader ▸ hrange) ?_ ?_ hblockTxCount
    · intro id hid
      rw [hids] at hid
      obtain ⟨tx, -, rfl⟩ := mem_map.mp hid
      exact Nat.mod_lt _ (by decide)
    · intro p hp
      rw [hprefilled, mem_singleton] at hp
      rw [hp]
      exact hchecked.reads hcoinbaseSize
  have hnull : isNullTx coinbase = false := by
    simp [isNullTx, hchecked.inputs]
  obtain ⟨header, vtx⟩ := block
  subst hvtx hcheader hcnonce
  obtain ⟨b, hinit, hbheader, hfits⟩ := initData_honest hprefilled hids hheader hnull hrest
    (hids ▸ hnodup) (hids ▸ hbuckets) hforeign
  change Fits (coinbase :: rest) _ at hfits
  refine ⟨c, b, hc, hlength ▸ hsize, by simpa using hread [], hinit, ?_⟩
  have hfill := fillMissing_missingTxs (hbheader ▸ hheader) hfits
  have hmutated := (isBlockMutated_eq_false_iff hroot hcoinbase).mpr hwitness
  simp [fillBlock, hbheader, hheader, hfill, hmutated]

end Honest

end PartiallyDownloadedBlock

open PartiallyDownloadedBlock

/-- A block that has passed `CheckBlock`, with distinct short ids, no crowded bucket and no foreign
transaction with one of its short ids, is relayed exactly if it has fewer than `2 ^ 16`
transactions, its compact form fits into a message and its witnesses are not malleated. Whatever is
announced and however often the block is filled, a block that is put together has the announced
header and its merkle root. -/
theorem compactBlock_relay (P : Primitives) (hasher : ShortIdHasher)
    (bucketSize : ShortIdMap → Nat → Nat) (params : Params) :
    (∀ (block : CBlock) (nonce : UInt64) (pool extra : List (Uint256 × CTransaction))
      (segwitActive : Bool),
      checkBlock P int64Range params block true true = .ok () → block.header.InRange →
      (blockShortIDs P hasher block nonce).Nodup →
      NoBucketOverflow bucketSize (blockShortIDs P hasher block nonce) →
      NoCollision (shortID hasher block.header nonce) (getWitnessHash P)
        block.vtx.tail (pool ++ extra) →
      (Relayed P hasher bucketSize block nonce pool extra segwitActive ↔
        block.vtx.length ≤ uint16Max ∧ compactSize block ≤ maxProtocolMessageLength ∧
        checkWitnessMalleation P block segwitActive = .ok ())) ∧
    ∀ (c : CBlockHeaderAndShortTxIDs) (pool extra : List (Uint256 × CTransaction))
      (calls : List (List CTransaction × Bool)) (vtxMissing : List CTransaction)
      (segwitActive : Bool) (block : CBlock) (b : PartiallyDownloadedBlock),
      fillBlock P (fillAll P (initData P hasher bucketSize c pool extra empty).2 calls) vtxMissing
        segwitActive = ((.ok, some block), b) →
      block.header = c.header ∧ blockMerkleRoot P block = (c.header.hashMerkleRoot, false) := by
  refine ⟨?_, ?_⟩
  · intro block nonce pool extra segwitActive hcheck hrange hnodup hbuckets hforeign
    have hspec := checkBlock_spec hcheck
    rw [checkBlock_eq] at hcheck
    simp only [bind_eq_ok_iff] at hcheck
    obtain ⟨_, hpow, _, hroot, -⟩ := hcheck
    have hheader := isNullHeader_of_checkProofOfWork (by simpa [checkBlockHeader] using hpow)
    constructor
    · exact fun h => h.limits hspec hroot
    · rintro ⟨hcount, hsize, hwitness⟩
      exact relayed_of_limits hspec hroot hheader hrange hnodup hbuckets hforeign hcount
        hsize hwitness
  · intro c pool extra calls vtxMissing segwitActive block b hfill
    have hannounced := (announced_initData (P := P) hasher bucketSize c pool extra).fillAll
      (P := P) calls
    obtain ⟨hheader, hroot⟩ := fillBlock_announced hannounced hfill
    refine ⟨hheader, ?_⟩
    obtain ⟨_, hequal, hmutated⟩ := bind_eq_ok_iff.mp hroot
    rw [rejectIf_eq_ok_iff] at hequal hmutated
    refine Prod.ext ?_ hmutated
    rw [← hheader]
    exact (bne_eq_false_iff_eq.mp hequal).symm

/-! ### Blocks of small transactions -/

namespace ManyTransactions

/-- The first four bytes are those of a number, and the others are null. -/
def numbered (bs : Bytes) : Uint256 :=
  ⟨(bs ++ (Blob.null 32).data).take 32, by simp [(Blob.null 32).size_eq]⟩

/-- A hash that keeps the left half of two hashes, and the last four bytes of anything else: the
lock time of a transaction. -/
def primitives : Primitives :=
  { Primitives.repeating with
    sha3_256 := fun bs => numbered (if bs.length = 64 then bs.take 32 else bs.drop (bs.length - 4))
      }

def coinbase : CTransaction :=
  ⟨[⟨⟨.null 32, COutPoint.nullIndex⟩, [1, 1], 0, []⟩], [⟨0, []⟩], 1, 0⟩

/-- A transaction of sixty bytes with a lock time. -/
def spend (k : Nat) : CTransaction := ⟨[⟨⟨.fill 32 1, 0⟩, [], 0, []⟩], [⟨0, []⟩], 1, UInt32.ofNat k⟩

/-- The root over distinct lock times is the first one. -/
def header : CBlockHeader := ⟨256, .null 32, .null 32, 0, 0x207fffff, 0⟩

/-- A block of a coinbase and `n` transactions. -/
def blockOf (n : Nat) : CBlock :=
  ⟨header, coinbase :: (List.range n).map fun k => spend (k + 1)⟩

/-- The hasher that gives back the first four bytes. -/
def hasher : ShortIdHasher := fun _ _ wtxid => UInt64.ofNat (readLE (wtxid.data.take 4))

theorem hash_append {bs lock : Bytes} (hlock : lock.length = 4)
    (hlength : (bs ++ lock).length ≠ 64) : hash primitives (bs ++ lock) = numbered lock := by
  have hdrop : (bs ++ lock).drop ((bs ++ lock).length - 4) = lock := by
    rw [length_append, hlock, Nat.add_sub_cancel, drop_left]
  simp only [hash, primitives, hlength, if_false, hdrop]

private theorem length_spend (k : Nat) : ((spend k).serialize false).length = 60 := by
  simp [spend, CTransaction.serialize, serializeVector, CTxIn.serialize, CTxOut.serialize,
    COutPoint.serialize, serializeBytes, serializeUInt32, serializeInt64,
    writeCompactSize, Blob.size_eq]

private theorem getHash_spend (k : Nat) : (spend k).getHash primitives =
    numbered (serializeUInt32 (UInt32.ofNat k)) := by
  exact hash_append (by simp [serializeUInt32])
    (by rw [← CTransaction.serialize, length_spend]; decide)

private theorem getHash_coinbase : coinbase.getHash primitives =
    numbered (serializeUInt32 (UInt32.ofNat 0)) := by
  decide +kernel

private theorem take_numbered {bs : Bytes} (h : bs.length = 4) :
    (numbered bs).data.take 4 = bs := by
  rw [numbered, take_take, take_append_of_le_length (by omega), take_of_length_le (by omega)]

private theorem readLE_take_numbered {k : Nat} (h : k < 2 ^ 32) :
    readLE ((numbered (serializeUInt32 (UInt32.ofNat k))).data.take 4) = k := by
  rw [take_numbered (by simp [serializeUInt32]), serializeUInt32, UInt32.toNat_ofNat_of_lt' h]
  exact readLE_writeLE h

/-- The leaves of the tree of a block are the numbers from zero on. -/
theorem map_getHash_blockOf (n : Nat) : ((blockOf n).vtx.map fun tx => tx.getHash primitives) =
    (List.range (n + 1)).map fun k => numbered (serializeUInt32 (UInt32.ofNat k)) := by
  rw [range_succ_eq_map, map_cons, map_map, blockOf, map_cons, map_map, getHash_coinbase]
  refine congrArg _ (map_congr_left fun k _ => ?_)
  exact getHash_spend (k + 1)

variable {n : Nat}

private theorem nodup_leaves (h : n < 2 ^ 32) :
    ((List.range n).map fun k => numbered (serializeUInt32 (UInt32.ofNat k))).Nodup := by
  refine (nodup_map_iff_inj_on nodup_range).mpr fun i hi j hj hij => ?_
  rw [mem_range] at hi hj
  rw [← readLE_take_numbered (hi.trans h), hij, readLE_take_numbered (hj.trans h)]

private theorem hashPair_left (left right : Uint256) : hashPair primitives left right = left := by
  have hlength : (left.data ++ right.data).length = 64 := by simp [Blob.size_eq]
  apply Blob.ext
  simp only [hashPair, hash, primitives, hlength, if_true, numbered]
  rw [take_append_of_le_length (by simp [Blob.size_eq]), take_take]
  rw [take_append_of_le_length (by simp [Blob.size_eq]), take_of_length_le (by simp [Blob.size_eq])]

private theorem checkMerkleRoot_blockOf (h : n + 1 < 2 ^ 32) : checkMerkleRoot primitives
    (blockOf n) = .ok () := by
  have hroot : blockMerkleRoot primitives (blockOf n) = (.null 32, false) := by
    rw [blockMerkleRoot, map_getHash_blockOf, computeMerkleRoot,
      Merkle.root_eq_head hashPair_left (nodup_leaves h), range_succ_eq_map, map_cons,
      head?_cons]
    decide +kernel
  rw [checkMerkleRoot, hroot]
  rfl

private theorem checkTransaction_spend (k : Nat) : checkTransaction int64Range
    (spend k) = .ok () := by
  have hsize : decide (maxBlockWeight < ((spend k).serialize false).length * witnessScaleFactor) =
      false := by
    rw [length_spend]
    decide
  rw [checkTransaction, hsize]
  rfl

private theorem length_flatMap_spend (ks : List Nat) :
    ((ks.map fun k => spend (k + 1)).flatMap (CTransaction.serialize false)).length = 60 *
    ks.length := by
  induction ks with
  | nil => rfl
  | cons k ks ih =>
    rw [map_cons, flatMap_cons, length_append, length_spend, ih, length_cons]
    omega

/-- Half a million small transactions pass `CheckBlock`. -/
theorem checkBlock_blockOf (h : n ≤ 500000) :
    checkBlock primitives int64Range TwoBlocks.network (blockOf n) true true = .ok () := by
  have hvtx : (blockOf n).vtx.length = n + 1 := by simp [blockOf]
  have hsize : ((blockOf n).serialize false).length ≤ 80 + (9 + (62 + 60 * n)) := by
    have hcoinbase : (coinbase.serialize false).length = 62 := by decide +kernel
    have hcount := length_writeCompactSize_le (blockOf n).vtx.length
    rw [CBlock.serialize, length_append, CBlockHeader.length_serialize, serializeVector,
      length_append]
    have hrest : ((blockOf n).vtx.flatMap (CTransaction.serialize false)).length = 62 + 60 * n := by
      rw [blockOf, flatMap_cons, length_append, length_flatMap_spend, length_range, hcoinbase]
    omega
  have hheader : checkBlockHeader primitives TwoBlocks.network (blockOf n).header = .ok () :=
    show checkBlockHeader primitives TwoBlocks.network header = _ by decide +kernel
  have htxs : checkTransactions primitives int64Range (blockOf n).vtx = .ok () := by
    refine checkTransactions_of_forall fun tx htx => ?_
    rcases mem_cons.mp htx with rfl | hmem
    · decide +kernel
    · obtain ⟨k, -, rfl⟩ := mem_map.mp hmem
      exact checkTransaction_spend (k + 1)
  have hsigops : ((blockOf n).vtx.map getLegacySigOpCount).sum = 0 := by
    have hspend : getLegacySigOpCount ∘ (fun k => spend (k + 1)) = fun _ => 0 := by
      rfl
    rw [blockOf, map_cons, map_map, hspend]
    simp [coinbase]
    decide +kernel
  have hothers : (blockOf n).vtx.tail.any CTransaction.isCoinBase = false := by
    rw [blockOf, tail_cons, any_map, any_eq_false]
    intro k _
    have hprevout : (⟨.fill 32 1, 0⟩ : COutPoint).isNull = false := by decide +kernel
    simpa [CTransaction.isCoinBase, spend] using hprevout
  exact checkBlock_eq_ok _ _ hheader (checkMerkleRoot_blockOf (by omega))
    (by rw [maxBlockWeight]; omega) (by rw [maxBlockWeight]; omega) rfl hothers htxs hsigops

/-- No transaction has a witness, so nothing has to be committed to. -/
theorem checkWitnessMalleation_blockOf (n : Nat) :
    checkWitnessMalleation primitives (blockOf n) true = .ok () := by
  have hwitness : (blockOf n).vtx.any CTransaction.hasWitness = false := by
    rw [blockOf, any_cons, any_map, Bool.or_eq_false_iff, any_eq_false]
    exact ⟨rfl, fun k _ => by simp [CTransaction.hasWitness, spend]⟩
  rw [checkWitnessMalleation, hwitness]
  rfl

private theorem blockShortIDs_blockOf (h : n + 1 < 2 ^ 32) (nonce : UInt64) :
    blockShortIDs primitives hasher (blockOf n) nonce = (List.range n).map (· + 1) := by
  rw [blockShortIDs, blockOf, tail_cons, map_map]
  refine map_congr_left fun k hk => ?_
  have hlt : k + 1 < 2 ^ 32 := by
    rw [mem_range] at hk
    omega
  have hwitness : (spend (k + 1)).hasWitness = false := rfl
  simp only [Function.comp_apply, shortID, hasher, getWitnessHash, hwitness,
    Bool.false_eq_true, if_false, getHash_spend, readLE_take_numbered hlt]
  rw [UInt64.toNat_ofNat_of_lt' (by simp only [UInt64.size]; omega), Nat.mod_eq_of_lt (by omega)]

private theorem nodup_blockShortIDs (h : n + 1 < 2 ^ 32) (nonce : UInt64) :
    (blockShortIDs primitives hasher (blockOf n) nonce).Nodup := by
  rw [blockShortIDs_blockOf h]
  exact nodup_range.map fun _ _ h => Nat.succ.inj h

private theorem noBucketOverflow_one (ids : List Nat) : NoBucketOverflow (fun _ _ => 1) ids :=
  fun _ _ _ _ => Nat.le_of_ble_eq_true rfl

private theorem compactSize_blockOf (n : Nat) : compactSize (blockOf n) ≤ 161 + 6 * n := by
  have hcoinbase : (coinbase.serialize true).length = 62 := by decide +kernel
  have hcount := length_writeCompactSize_le (blockOf n).vtx.tail.length
  have hlength : (blockOf n).vtx.tail.length = n := by simp [blockOf]
  have hhead : (blockOf n).vtx.head? = some coinbase := rfl
  rw [compactSize, hhead, Option.elim_some]
  omega

private theorem blockTxCount_blockOf {nonce : UInt64}
    (hc : ofBlock primitives hasher (blockOf n) nonce = some c) : c.blockTxCount = n + 1 := by
  simp only [blockOf, ofBlock, Option.some.injEq] at hc
  rw [← hc, blockTxCount, length_map, length_map, length_range, length_singleton]

end ManyTransactions

open ManyTransactions in
/-- A block of two transactions and a coinbase is relayed to a node that has one of them, and the
block that is put together there has the header and its merkle root. -/
theorem compactBlock_relay_three :
    let pool := [(getWitnessHash primitives (spend 1), spend 1)]
    Relayed primitives hasher (fun _ _ => 1) (blockOf 2) 7 pool [] true ∧
      ∃ c b b', initData primitives hasher (fun _ _ => 1) c pool [] empty = (.ok, b) ∧
        fillBlock primitives b (missingTxs b (blockOf 2).vtx) true = ((.ok, some (blockOf 2)), b') ∧
        (blockOf 2).header = c.header ∧
        blockMerkleRoot primitives (blockOf 2) = (c.header.hashMerkleRoot, false) := by
  intro pool
  have hforeign : NoCollision (shortID hasher (blockOf 2).header 7)
      (getWitnessHash primitives) (blockOf 2).vtx.tail (pool ++ []) := by
    unfold NoCollision
    decide +kernel
  have hsize : compactSize (blockOf 2) ≤ maxProtocolMessageLength :=
    (compactSize_blockOf 2).trans (by decide)
  have hrelayed : Relayed primitives hasher (fun _ _ => 1) (blockOf 2) 7 pool [] true :=
    ((compactBlock_relay primitives hasher (fun _ _ => 1) TwoBlocks.network).1
      (blockOf 2) 7 pool [] true
      (checkBlock_blockOf (by decide)) (by decide) (nodup_blockShortIDs (by decide) 7)
      (noBucketOverflow_one _) hforeign).mpr ⟨by decide, hsize, checkWitnessMalleation_blockOf 2⟩
  refine ⟨hrelayed, ?_⟩
  obtain ⟨c, b, -, -, -, hinit, hfill⟩ := hrelayed
  have hrun : fillBlock primitives b (missingTxs b (blockOf 2).vtx) true =
      ((.ok, some (blockOf 2)), (fillBlock primitives b (missingTxs b (blockOf 2).vtx) true).2) :=
    Prod.ext hfill rfl
  have hroot := (compactBlock_relay primitives hasher (fun _ _ => 1) TwoBlocks.network).2 c pool []
    [] (missingTxs b (blockOf 2).vtx) true (blockOf 2) _ (by rw [hinit]; exact hrun)
  exact ⟨c, b, _, hinit, hrun, hroot⟩

open ManyTransactions in
/-- A block of `2 ^ 16` transactions passes all checks, its short ids are distinct and its compact
form is small, but it cannot be read. -/
theorem compactBlock_relay_many :
    let block := blockOf 65535
    checkBlock primitives int64Range TwoBlocks.network block true true = .ok () ∧
    block.header.InRange ∧ (blockShortIDs primitives hasher block 7).Nodup ∧
      NoBucketOverflow (fun _ _ => 1) (blockShortIDs primitives hasher block 7) ∧
      NoCollision (shortID hasher block.header 7) (getWitnessHash primitives)
        block.vtx.tail ([] ++ []) ∧
      compactSize block ≤ maxProtocolMessageLength ∧
      checkWitnessMalleation primitives block true = .ok () ∧
      (∀ c, ofBlock primitives hasher block 7 = some c → ∀ rest, unserialize.run c.serialize ≠
        .ok (c, rest)) ∧
      ¬ Relayed primitives hasher (fun _ _ => 1) block 7 [] [] true := by
  intro block
  have hcheck : checkBlock primitives int64Range TwoBlocks.network block true true = .ok () :=
    checkBlock_blockOf (by decide)
  have hread : ∀ c, ofBlock primitives hasher block 7 = some c →
      ∀ rest, unserialize.run c.serialize ≠ .ok (c, rest) := by
    intro c hc rest hrun
    have hcount := blockTxCount_of_unserialize hrun
    rw [blockTxCount_blockOf hc] at hcount
    exact absurd hcount (by decide)
  refine ⟨hcheck, by decide, nodup_blockShortIDs (by decide) 7, noBucketOverflow_one _, nofun,
    (compactSize_blockOf 65535).trans (by decide), checkWitnessMalleation_blockOf 65535, hread, ?_⟩
  rintro ⟨c, b, hc, -, hrun, -⟩
  exact hread c hc [] hrun

end Tessera.Net
