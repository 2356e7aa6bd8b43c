import Tessera.Coins.Refinement

/-!
# The coins database

`CCoinsViewDB` (`txdb.cpp`): the database under the caches. A flush writes the dirty entries of a
cache in batches, each of which is written as a whole or not at all. The first one marks the
database as being on the way from the old tip to the new one, and the last one takes the mark away.

The process may stop between two batches. What is then in the database is told by
`CCoinsViewDB.afterBatches_cases`: up to some entry of the flush the new coins, and the old ones
from there on.
-/

namespace Tessera.Coins

open Tx List

variable {new old : Uint256} {view : CCoinsView}

/-- What the database holds: the coins, and the values of `DB_BEST_BLOCK` and `DB_HEAD_BLOCKS`. -/
structure CCoinsViewDB where
  coins : CoinMap
  bestBlock : Option Uint256
  headBlocks : Option (List Uint256)

/-- A change of one key, as a batch collects them. -/
inductive DbWrite where
  | eraseBestBlock
  | writeBestBlock (hash : Uint256)
  | eraseHeadBlocks
  | writeHeadBlocks (hashes : List Uint256)
  | eraseCoin (o : COutPoint)
  | writeCoin (o : COutPoint) (coin : Coin)

namespace CCoinsViewDB

variable (db : CCoinsViewDB)

/-- Change one key. -/
def write : DbWrite → CCoinsViewDB
  | .eraseBestBlock => { db with bestBlock := none }
  | .writeBestBlock hash => { db with bestBlock := some hash }
  | .eraseHeadBlocks => { db with headBlocks := none }
  | .writeHeadBlocks hashes => { db with headBlocks := some hashes }
  | .eraseCoin o => { db with coins := Function.update db.coins o none }
  | .writeCoin o coin => { db with coins := Function.update db.coins o (some coin) }

def writeBatch (batch : List DbWrite) : CCoinsViewDB := batch.foldl write db

def getBestBlock : Uint256 := db.bestBlock.getD (.null 32)

def getHeadBlocks : List Uint256 := db.headBlocks.getD []

/-- The old tip of a flush. The database may be on the way to the new one already. -/
def oldTip (blockHash : Uint256) : Except String Uint256 :=
  if db.getBestBlock.isNull then
    match db.getHeadBlocks with
    | [new, old] => if new = blockHash then .ok old else .error "old_heads[0] == block_hash"
    | _ => .ok db.getBestBlock
  else .ok db.getBestBlock

/-- What a flush writes for an entry. -/
def coinWrite (o : COutPoint) (e : CCoinsCacheEntry) : DbWrite :=
  if e.coin.isSpent then .eraseCoin o else .writeCoin o e.coin

/-- The loop of `BatchWrite`: the batches that it writes from a batch that was begun. A batch is
written when it is full, and the last one at the end. -/
def batchesFrom (full : List DbWrite → Bool) (blockHash : Uint256) :
    List DbWrite → List (COutPoint × CCoinsCacheEntry) → List (List DbWrite)
  | batch, [] => [batch ++ [.eraseHeadBlocks, .writeBestBlock blockHash]]
  | batch, (o, e) :: rest =>
    let batch := if e.dirty then batch ++ [coinWrite o e] else batch
    if full batch then batch :: batchesFrom full blockHash [] rest
    else batchesFrom full blockHash batch rest

/-- `CCoinsViewDB::BatchWrite`: the batches that it writes one after the other. Whether a batch is
full depends on its size. -/
def batchWrite (db : CCoinsViewDB) (full : List DbWrite → Bool)
    (entries : List (COutPoint × CCoinsCacheEntry)) (blockHash : Uint256) :
    Except String (List (List DbWrite)) :=
  if blockHash.isNull then .error "!block_hash.IsNull()"
  else do
    let old ← db.oldTip blockHash
    return batchesFrom full blockHash [.eraseBestBlock, .writeHeadBlocks [blockHash, old]] entries

/-- The database after some batches of a flush. -/
def afterBatches (db : CCoinsViewDB) (batches : List (List DbWrite)) : CCoinsViewDB :=
  batches.foldl writeBatch db

/-- The database holds what a view shows, and is marked as consistent. -/
structure Holds (db : CCoinsViewDB) (view : CCoinsView) : Prop where
  coins : db.coins = view.coins
  best : db.getBestBlock = view.hashBlock
  heads : db.getHeadBlocks = []

/-- The database is marked as being on the way to a block, from an old tip. -/
structure Between (db : CCoinsViewDB) (new old : Uint256) : Prop where
  best : db.bestBlock = none
  heads : db.headBlocks = some [new, old]

/-- The database that holds a view. -/
def consistent (view : CCoinsView) : CCoinsViewDB := ⟨view.coins, some view.hashBlock, none⟩

theorem holds_consistent (view : CCoinsView) : (consistent view).Holds view := ⟨rfl, rfl, rfl⟩

theorem Between.oldTip {db : CCoinsViewDB} (h : db.Between new old) :
    db.oldTip new = .ok old := by
  have hnull : Blob.isNull db.getBestBlock := by
    rw [getBestBlock, h.best]
    exact Blob.isNull_null
  rw [CCoinsViewDB.oldTip, if_pos hnull, getHeadBlocks, h.heads]
  exact if_pos rfl

theorem Holds.oldTip {db : CCoinsViewDB} (h : db.Holds view) (hash : Uint256) :
    db.oldTip hash = .ok view.hashBlock := by
  rw [CCoinsViewDB.oldTip, h.best, h.heads]
  split
  · rfl
  · rfl

/-! ### What batches leave -/

variable {db : CCoinsViewDB} {entries : List (COutPoint × CCoinsCacheEntry)}

private theorem writeBatch_append (db : CCoinsViewDB) (xs ys : List DbWrite) :
    db.writeBatch (xs ++ ys) = (db.writeBatch xs).writeBatch ys :=
  foldl_append

/-- The batches of a flush from a batch that was begun, in a database in which the mark is set once
the begun batch is written. After all of them the entries are applied, and the mark is gone; after
fewer, but the first, the mark is set and some of the entries are applied. -/
theorem afterBatches_batchesFrom (db : CCoinsViewDB) (full : List DbWrite → Bool)
    (hdirty : ∀ p ∈ entries, p.2.dirty) (batch : List DbWrite)
    (hmark : Between (db.writeBatch batch) new old) (k : Nat) :
    let batches := batchesFrom full new batch entries
    (batches.length ≤ k → db.afterBatches (batches.take k) =
      ⟨applyEntries (db.writeBatch batch).coins entries, some new, none⟩) ∧
    (0 < k → k < batches.length → Between (db.afterBatches (batches.take k)) new old ∧
      ∃ n, (db.afterBatches (batches.take k)).coins =
        applyEntries (db.writeBatch batch).coins (entries.take n)) := by
  induction entries generalizing db batch k with
  | nil =>
    refine ⟨fun hk => ?_, fun hpos hk => ?_⟩
    · rw [take_of_length_le hk]
      -- the last batch takes the mark away
      exact (writeBatch_append db batch _).trans rfl
    · simp only [batchesFrom, length_singleton] at hk
      omega
  | cons p rest ih =>
    obtain ⟨o, e⟩ := p
    obtain ⟨hfirst, hrest⟩ := forall_mem_cons.mp hdirty
    have hbatch : db.writeBatch (batch ++ [coinWrite o e]) = { db.writeBatch batch with
        coins := Function.update (db.writeBatch batch).coins o e.coin.unspent? } := by
      rw [writeBatch_append]
      unfold coinWrite Coin.unspent?
      split <;> rfl
    have hmark' : Between (db.writeBatch (batch ++ [coinWrite o e])) new old := by
      rw [hbatch]
      exact ⟨hmark.best, hmark.heads⟩
    have happly : ∀ es, applyEntries (db.writeBatch (batch ++ [coinWrite o e])).coins es =
        applyEntries (db.writeBatch batch).coins ((o, e) :: es) := by
      intro es
      rw [hbatch]
      rfl
    unfold batchesFrom
    dsimp only at hfirst ⊢
    rw [if_pos hfirst, ← happly rest]
    split
    · -- the batch is full, and the next one starts from nothing
      cases k with
      | zero => exact ⟨fun hk => by simp at hk, fun hpos => absurd hpos (lt_irrefl 0)⟩
      | succ k =>
        obtain ⟨hall, hsome⟩ := ih (db.writeBatch (batch ++ [coinWrite o e])) hrest [] hmark' k
        rw [length_cons]
        refine ⟨fun hk => hall (by omega), fun _ hk => ?_⟩
        cases k with
        | zero => exact ⟨hmark', 1, happly []⟩
        | succ k =>
          obtain ⟨hbetween, n, hn⟩ := hsome (Nat.succ_pos k) (by omega)
          exact ⟨hbetween, n + 1, hn.trans (happly (rest.take n))⟩
    · obtain ⟨hall, hsome⟩ := ih db hrest (batch ++ [coinWrite o e]) hmark' k
      refine ⟨hall, fun hpos hk => ?_⟩
      obtain ⟨hbetween, n, hn⟩ := hsome hpos hk
      exact ⟨hbetween, n + 1, hn.trans (happly (rest.take n))⟩

/-! ### Flushing a cache -/

/-- The batches of a flush, in some order of the entries, of a cache over the database that shows a
view. -/
def FlushOf (db : CCoinsViewDB) (view : CCoinsView) (batches : List (List DbWrite)) : Prop :=
  ∃ cache entries full, CacheOk db.coins cache ∧ «over» db.coins cache = view.coins ∧
    entries.Perm cache.cursor ∧ db.batchWrite full entries view.hashBlock = .ok batches

variable {M : CoinMap} {c : CCoinsViewCache} {batches : List (List DbWrite)}

/-- There is a cache that shows a view, if it differs from the database at finitely many outpoints;
it has an entry at each of them. -/
theorem exists_flushOf {os : List COutPoint} (hos : ∀ o ∉ os, db.coins o = view.coins o)
    (hunspent : Unspent view.coins) (hnull : view.hashBlock.isNull = false)
    (hold : db.oldTip view.hashBlock = .ok old) (full : List DbWrite → Bool) :
    ∃ entries : List (COutPoint × CCoinsCacheEntry), entries.map Prod.fst = os.dedup ∧
      FlushOf db view (batchesFrom full view.hashBlock
        [.eraseBestBlock, .writeHeadBlocks [view.hashBlock, old]] entries) := by
  let cache : CCoinsViewCache := ⟨fun o =>
    if o ∈ os then some ⟨(view.coins o).getD .null, true, false⟩ else none, os.dedup, .null 32⟩
  have hentry : ∀ o e, cache.cacheCoins o = some e → o ∈ os ∧
      e = ⟨(view.coins o).getD .null, true, false⟩ := by
    intro o e he
    by_cases ho : o ∈ os
    · exact ⟨ho, (Option.some.inj ((if_pos ho).symm.trans he)).symm⟩
    · exact absurd ((if_neg ho).symm.trans he) (by simp)
  have hcache : CacheOk db.coins cache := by
    refine ⟨fun o e he hclean => ?_, fun o e he hfresh => ?_, fun o e he hspent => ?_, fun o => ?_,
      nodup_dedup os⟩
    · rw [(hentry o e he).2] at hclean
      cases hclean
    · rw [(hentry o e he).2] at hfresh
      cases hfresh
    · obtain ⟨-, rfl⟩ := hentry o e he
      cases hcoin : view.coins o with
      | none => rfl
      | some coin =>
        rw [hcoin, Option.getD_some, hunspent o coin hcoin] at hspent
        cases hspent
    · rw [mem_dedup]
      constructor
      · intro ho
        exact ⟨_, if_pos ho, rfl⟩
      · rintro ⟨e, he, -⟩
        exact (hentry o e he).1
  have hover : «over» db.coins cache = view.coins := by
    funext o
    by_cases ho : o ∈ os
    · rw [over_of_some (c := cache) (if_pos ho)]
      cases hcoin : view.coins o with
      | none => rfl
      | some coin => exact Coin.unspent?_eq_some (hunspent o coin hcoin)
    · rw [over_of_none (c := cache) (if_neg ho), hos o ho]
  have hwrite : db.batchWrite full cache.cursor view.hashBlock =
      .ok (batchesFrom full view.hashBlock
        [.eraseBestBlock, .writeHeadBlocks [view.hashBlock, old]] cache.cursor) := by
    rw [batchWrite, if_neg (by simp [hnull]), hold]
    rfl
  exact ⟨cache.cursor, hcache.cursor_fst, cache, cache.cursor, full, hcache, hover,
    List.Perm.refl _, hwrite⟩

/-- A flush whose batches are full at once writes a batch for each entry, and one at the end. -/
theorem length_batchesFrom_full (blockHash : Uint256) (batch : List DbWrite)
    (entries : List (COutPoint × CCoinsCacheEntry)) :
    (batchesFrom (fun _ => true) blockHash batch entries).length = entries.length + 1 := by
  induction entries generalizing batch with
  | nil => rfl
  | cons p rest ih =>
    rw [batchesFrom, if_pos rfl, length_cons, ih, length_cons]

private theorem applyEntries_of_perm (h : CacheOk M c) (hperm : entries.Perm c.cursor) :
    applyEntries M entries = «over» M c := by
  have hkeys := hperm.map Prod.fst
  rw [← h.applyEntries_cursor]
  funext o
  by_cases ho : o ∈ entries.map Prod.fst
  · obtain ⟨⟨o', e⟩, hmem, rfl⟩ := mem_map.mp ho
    rw [applyEntries_of_mem (hkeys.nodup_iff.mpr h.nodup_cursor) hmem,
      applyEntries_of_mem h.nodup_cursor (hperm.mem_iff.mp hmem)]
  · rw [applyEntries_of_not_mem ho, applyEntries_of_not_mem (hkeys.mem_iff.not.mp ho)]

/-- Some of the entries do at each outpoint nothing or what all of them do. -/
theorem applyEntries_take (hnodup : (entries.map Prod.fst).Nodup) (n : Nat) (o : COutPoint) :
    applyEntries M (entries.take n) o = M o ∨ applyEntries M (entries.take n) o =
      applyEntries M entries o := by
  have hsub := (take_sublist n entries).map Prod.fst
  by_cases ho : o ∈ (entries.take n).map Prod.fst
  · obtain ⟨⟨o', e⟩, hmem, rfl⟩ := mem_map.mp ho
    right
    rw [applyEntries_of_mem (hnodup.sublist hsub) hmem, applyEntries_of_mem hnodup
      (mem_of_mem_take hmem)]
  · exact .inl (applyEntries_of_not_mem ho)

/-- The database after some batches of a flush: after all of them it holds the view, and after fewer
it is on the way, and every outpoint has its old coin or its new one. -/
theorem afterBatches_cases (h : FlushOf db view batches) (hold : db.oldTip view.hashBlock = .ok old)
    {k : Nat} (hk : 0 < k) : batches.length ≤ k ∧ Holds (db.afterBatches (batches.take k)) view ∨
      k < batches.length ∧ Between (db.afterBatches (batches.take k)) view.hashBlock old ∧
        ∀ o, (db.afterBatches (batches.take k)).coins o = db.coins o ∨
          (db.afterBatches (batches.take k)).coins o = view.coins o := by
  obtain ⟨cache, entries, full, hcache, hview, hperm, hwrite⟩ := h
  unfold batchWrite at hwrite
  split at hwrite
  · cases hwrite
  rw [hold] at hwrite
  cases hwrite
  have hdirty : ∀ p ∈ entries, p.2.dirty :=
    fun p hp => hcache.dirty_of_mem_cursor (hperm.mem_iff.mp hp)
  have hnodup := (hperm.map Prod.fst).nodup_iff.mpr hcache.nodup_cursor
  have happly := applyEntries_of_perm hcache hperm
  obtain ⟨hall, hsome⟩ := afterBatches_batchesFrom db full hdirty
    [.eraseBestBlock, .writeHeadBlocks [view.hashBlock, old]] ⟨rfl, rfl⟩ k
  by_cases hlast : (batchesFrom full view.hashBlock
      [.eraseBestBlock, .writeHeadBlocks [view.hashBlock, old]] entries).length ≤ k
  · left
    rw [hall hlast]
    exact ⟨hlast, happly.trans hview, rfl, rfl⟩
  · right
    obtain ⟨hbetween, n, hn⟩ := hsome hk (by omega)
    refine ⟨by omega, hbetween, fun o => ?_⟩
    rw [hn, ← hview, ← happly]
    exact applyEntries_take hnodup n o

end CCoinsViewDB

end Tessera.Coins
