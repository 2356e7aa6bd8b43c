import Tessera.Lib.FlatFile
import Tessera.Validation.BlockRead
import Tessera.Validation.Reorg

/-!
# Block and undo files

The part of `node/blockstorage.cpp` that writes blocks and undo records and reads them back, with
the files of `flatfile.cpp`. There is no snapshot, so that all blocks go to files of one type, and
nothing is pruned. The disk has room, and no call on a file fails. The key with which what is in a
file is obfuscated is left out: reading at a position takes away what writing there has added.
-/

namespace Tessera.BlockStorage

open Function Coins Lib Tx Validation

def maxBlockfileSize : UInt32 := 0x8000000

def blockfileChunkSize : Nat := 0x1000000

def undofileChunkSize : Nat := 0x100000

def storageHeaderBytes : UInt32 := 8

def undoDataDiskOverhead : UInt32 := storageHeaderBytes + 32

/-- The options of a `BlockManager` that storage depends on, and the bytes before a record. -/
structure Options where
  fastPrune : Bool
  messageStart : Blob 4

structure CBlockFileInfo where
  nBlocks : UInt32
  nSize : UInt32
  nUndoSize : UInt32
  nHeightFirst : UInt32
  nHeightLast : UInt32
  nTimeFirst : UInt64
  nTimeLast : UInt64
  deriving DecidableEq

namespace CBlockFileInfo

/-- Nothing is in the file. -/
def empty : CBlockFileInfo := ⟨0, 0, 0, 0, 0, 0, 0⟩

def addBlock (info : CBlockFileInfo) (nHeight : UInt32) (nTime : UInt64) : CBlockFileInfo :=
  { info with
    nBlocks := info.nBlocks + 1
    nHeightFirst := if info.nBlocks == 0 || nHeight < info.nHeightFirst then nHeight
      else info.nHeightFirst
    nTimeFirst := if info.nBlocks == 0 || nTime < info.nTimeFirst then nTime else info.nTimeFirst
    nHeightLast := if info.nHeightLast < nHeight then nHeight else info.nHeightLast
    nTimeLast := if info.nTimeLast < nTime then nTime else info.nTimeLast }

end CBlockFileInfo

structure BlockfileCursor where
  fileNum : Nat
  undoHeight : Int
  deriving DecidableEq

/-- `FlatFilePos`, of a file that there is. -/
structure FlatFilePos where
  nFile : Nat
  nPos : UInt32
  deriving DecidableEq

/-- What a block index entry says about the files. -/
structure StoredEntry where
  nFile : Nat
  nDataPos : UInt32
  /-- `nUndoPos` if the entry has `BLOCK_HAVE_UNDO`. -/
  undoPos : Option UInt32
  deriving DecidableEq

/-- The files, what is known of them, and the entries of the blocks that have data. -/
structure Storage where
  blockfileInfo : List CBlockFileInfo
  cursor : BlockfileCursor
  blk : Nat → Bytes
  rev : Nat → Bytes
  entries : CBlockIndex → Option StoredEntry

namespace Storage

/-- There are no files. -/
def init : Storage := ⟨[], ⟨0, 0⟩, fun _ => [], fun _ => [], fun _ => none⟩

/-- What is known of a file. -/
def info (s : Storage) (nFile : Nat) : CBlockFileInfo := s.blockfileInfo.getD nFile .empty

/-- `m_blockfile_info.resize(nFile + 1)` if there are fewer. -/
def resized (infos : List CBlockFileInfo) (nFile : Nat) : List CBlockFileInfo :=
  infos ++ List.replicate (nFile + 1 - infos.length) .empty

/-- Set what is known of a file. -/
def setInfo (s : Storage) (nFile : Nat) (info : CBlockFileInfo) : Storage :=
  { s with blockfileInfo := s.blockfileInfo.set nFile info }

/-! ### Files -/

/-- The end of the last chunk that `FlatFileSeq::Allocate` makes sure of. -/
def allocatedSize (chunk pos addSize : Nat) : Nat :=
  let oldChunks := (pos + chunk - 1) / chunk
  let newChunks := (pos + addSize + chunk - 1) / chunk
  if oldChunks < newChunks then newChunks * chunk else 0

def allocate (chunk : Nat) (file : Bytes) (pos addSize : Nat) : Bytes :=
  FlatFile.extend 0 file (allocatedSize chunk pos addSize)

/-- `TruncateFile`. -/
def truncate (file : Bytes) (size : Nat) : Bytes := FlatFile.extend 0 (file.take size) size

/-- `FlushUndoFile` that finalizes. One that does not leaves the file as it is. -/
def finalizeUndoFile (s : Storage) (nFile : Nat) : Storage :=
  { s with rev := update s.rev nFile (truncate (s.rev nFile) (s.info nFile).nUndoSize.toNat) }

/-- `FlushBlockFile` that finalizes. -/
def finalizeBlockFile (s : Storage) (nFile : Nat) (finalizeUndo : Bool) : Storage :=
  let s := { s with blk := update s.blk nFile (truncate (s.blk nFile) (s.info nFile).nSize.toNat) }
  if finalizeUndo then s.finalizeUndoFile nFile else s

/-! ### Positions -/

variable (opts : Options)

def maxFileSize (nAddSize : UInt32) : UInt32 :=
  if opts.fastPrune then if 0x10000 ≤ nAddSize then nAddSize + 1 else 0x10000 else maxBlockfileSize

/-- The loop of `FindNextBlockPos`: the file, whether the undo file before it is complete, and the
state. Every round goes on to the next file, and a file that was not there before has room. -/
def nextFile (nAddSize : UInt32) : Nat → Storage → Nat → Bool → Option (Nat × Bool × Storage)
  | 0, _, _, _ => none
  | fuel + 1, s, nFile, finalizeUndo =>
    if maxFileSize opts nAddSize ≤ (s.info nFile).nSize + nAddSize then
      let next := s.cursor.fileNum + 1
      nextFile nAddSize fuel
        { s with cursor := ⟨next, 0⟩, blockfileInfo := resized s.blockfileInfo next } next
        (((s.info nFile).nHeightLast.toNat : Int) == s.cursor.undoHeight)
    else some (nFile, finalizeUndo, s)

variable (s : Storage)

/-- What `FindNextBlockPos` does once it has found the file. -/
def takeBlockPos (nAddSize : UInt32) (nHeight : UInt32) (nTime : UInt64)
    (lastBlockfile nFile : Nat) (finalizeUndo : Bool) : FlatFilePos × Storage :=
  let pos : FlatFilePos := ⟨nFile, (s.info nFile).nSize⟩
  let s := if nFile ≠ lastBlockfile then
      { s.finalizeBlockFile lastBlockfile finalizeUndo with cursor := ⟨nFile, 0⟩ }
    else s
  let info := (s.info nFile).addBlock nHeight nTime
  let s := s.setInfo nFile { info with nSize := info.nSize + nAddSize }
  (pos, { s with
    blk := update s.blk nFile
      (allocate blockfileChunkSize (s.blk nFile) pos.nPos.toNat nAddSize.toNat) })

/-- `FindNextBlockPos`. The assertion fails if the block does not fit into a file. -/
def findNextBlockPos (nAddSize : UInt32) (nHeight : UInt32) (nTime : UInt64) :
    Option (FlatFilePos × Storage) :=
  let lastBlockfile := s.cursor.fileNum
  let s := { s with blockfileInfo := resized s.blockfileInfo lastBlockfile }
  if nAddSize < maxFileSize opts nAddSize then
    (nextFile opts nAddSize (s.blockfileInfo.length + 1) s lastBlockfile false).map
      fun (nFile, finalizeUndo, s) => s.takeBlockPos nAddSize nHeight nTime lastBlockfile
        nFile finalizeUndo
  else none

def findUndoPos (nFile : Nat) (nAddSize : UInt32) : FlatFilePos × Storage :=
  let info := s.info nFile
  let s := s.setInfo nFile { info with nUndoSize := info.nUndoSize + nAddSize }
  (⟨nFile, info.nUndoSize⟩, { s with
    rev := update s.rev nFile
      (allocate undofileChunkSize (s.rev nFile) info.nUndoSize.toNat nAddSize.toNat) })

/-! ### Writing -/

def storageHeader (size : UInt32) : Bytes := opts.messageStart.data ++ serializeUInt32 size

def writeBlock (s : Storage) (block : CBlock) (nHeight : UInt32) : Option (FlatFilePos × Storage) :=
  let blockSize := UInt32.ofNat (block.serialize true).length
  match s.findNextBlockPos opts (blockSize + storageHeaderBytes) nHeight
    block.header.nTime.toUInt64 with
  | none => none
  | some (pos, s) =>
    some (⟨pos.nFile, pos.nPos + storageHeaderBytes⟩, { s with
      blk := update s.blk pos.nFile (FlatFile.writeAt 0 (s.blk pos.nFile) pos.nPos.toNat
        (storageHeader opts blockSize ++ block.serialize true)) })

variable (P : Primitives)

/-- `WriteBlockUndo` for a block whose data is stored. -/
def writeUndo (s : Storage) (blockundo : CBlockUndo) (pindex : CBlockIndex)
    (entry : StoredEntry) : Storage :=
  if entry.undoPos.isSome then s
  else
    let size := UInt32.ofNat blockundo.serialize.length
    let (pos, s) := s.findUndoPos entry.nFile (size + undoDataDiskOverhead)
    let s := { s with
      rev := update s.rev pos.nFile (FlatFile.writeAt 0 (s.rev pos.nFile) pos.nPos.toNat
        (storageHeader opts size ++ writeBlockUndo P
          (CBlockIndex.getBlockHash P pindex.tail) blockundo)) }
    -- the last block of a file that is complete has its record now
    let s := if pos.nFile < s.cursor.fileNum ∧ pindex.nHeight =
      (s.info pos.nFile).nHeightLast.toNat then s.finalizeUndoFile pos.nFile
      else if pos.nFile = s.cursor.fileNum ∧ s.cursor.undoHeight < pindex.nHeight then
        { s with cursor := { s.cursor with undoHeight := pindex.nHeight } }
      else s
    let entry := { entry with undoPos := some (pos.nPos + storageHeaderBytes) }
    { s with entries := update s.entries pindex (some entry) }

/-! ### Reading -/

/-- `ReadRawBlock` of a whole block. -/
def readRawBlock (s : Storage) (pos : FlatFilePos) : Option Bytes :=
  if pos.nPos < storageHeaderBytes then none
  else
    let data := (s.blk pos.nFile).drop (pos.nPos - storageHeaderBytes).toNat
    let blkSize := readLE ((data.drop 4).take 4)
    if data.length < 8 ∨ data.take 4 ≠ opts.messageStart.data ∨ maxSize < blkSize ∨
        (data.drop 8).length < blkSize then none
    else some ((data.drop 8).take blkSize)

def readBlock (params : Params) (s : Storage) (pindex : CBlockIndex) (entry : StoredEntry) :
    Option CBlock :=
  match s.readRawBlock opts ⟨entry.nFile, entry.nDataPos⟩ with
  | none => none
  | some data =>
    match CBlock.unserialize.run data with
    | .error _ => none
    | .ok (block, _) =>
      if !checkProofOfWork params (block.header.getPoWHash P) block.header.nBits then none
      else if block.getHash P ≠ CBlockIndex.getBlockHash P pindex then none
      else some block

/-- `ReadBlockUndo` of an entry. -/
def readUndo (s : Storage) (pindex : CBlockIndex) (entry : StoredEntry) : Option CBlockUndo :=
  entry.undoPos.bind fun nUndoPos =>
    readBlockUndo P (CBlockIndex.getBlockHash P pindex.tail)
      ((s.rev entry.nFile).drop nUndoPos.toNat)

end Storage

/-! ## Runs of block storage

A node writes blocks in any order and the undo record of a block once it has connected it. The log
of a node says what was written and where. `Intact` is what storage is for: no size or position
needs more than 32 bits, ranges of one file do not overlap, and everything that was written is read
back.
-/

/-- Something that was written: the block of an entry, or its undo record. -/
inductive Event where
  | block (pindex : CBlockIndex) (nFile pos : Nat)
  | undo (pindex : CBlockIndex) (blockundo : CBlockUndo) (nFile pos : Nat)

/-- A call of a node: a block has arrived, or has been connected. -/
inductive Op where
  | block (block : CBlock) (pprev : CBlockIndex)
  | undo (pindex : CBlockIndex) (blockundo : CBlockUndo)

/-- Storage, and what has been written to it. -/
structure Node where
  storage : Storage
  log : List Event

variable (P : Primitives) (opts : Options) (params : Params)

namespace Node

/-- A node without files. -/
def init : Node := ⟨.init, []⟩

/-- What a node does when a block has arrived. It writes a block only once. -/
def blockArrived (n : Node) (block : CBlock) (pprev : CBlockIndex) : Option Node :=
  let pindex : CBlockIndex := block :: pprev
  if (n.storage.entries pindex).isSome then some n
  else
    (n.storage.writeBlock opts block (UInt32.ofNat pprev.length)).map fun (pos, s) =>
      ⟨{ s with entries := Function.update s.entries pindex (some ⟨pos.nFile, pos.nPos, none⟩) },
        .block pindex pos.nFile (pos.nPos - storageHeaderBytes).toNat :: n.log⟩

/-- What a node does when a block has been connected. -/
def blockConnected (n : Node) (pindex : CBlockIndex) (blockundo : CBlockUndo) : Node :=
  match n.storage.entries pindex with
  | none => n
  | some entry =>
    if entry.undoPos.isSome then n
    else ⟨n.storage.writeUndo opts P blockundo pindex entry,
      .undo pindex blockundo entry.nFile (n.storage.info entry.nFile).nUndoSize.toNat :: n.log⟩

/-- A call. Nothing is left of a node once an assertion has failed. -/
def step (n : Option Node) : Op → Option Node
  | .block block pprev => n.bind fun n => n.blockArrived opts block pprev
  | .undo pindex blockundo => n.map fun n => n.blockConnected P opts pindex blockundo

end Node

/-! ### What storage is for -/

def blockRecord (block : CBlock) : Bytes :=
  Storage.storageHeader opts (UInt32.ofNat (block.serialize true).length) ++ block.serialize true

def undoRecord (pindex : CBlockIndex) (blockundo : CBlockUndo) : Bytes :=
  Storage.storageHeader opts (UInt32.ofNat blockundo.serialize.length) ++
    writeBlockUndo P (CBlockIndex.getBlockHash P pindex.tail) blockundo

/-- The records in a block file, with their positions. -/
def blocksIn (log : List Event) (nFile : Nat) : List (Nat × Bytes) :=
  log.filterMap fun
    | .block (block :: _) nFile' pos =>
      if nFile' = nFile then some (pos, blockRecord opts block) else none
    | _ => none

/-- The records in an undo file, with their positions. -/
def undosIn (log : List Event) (nFile : Nat) : List (Nat × Bytes) :=
  log.filterMap fun
    | .undo pindex blockundo nFile' pos =>
      if nFile' = nFile then some (pos, undoRecord P opts pindex blockundo) else none
    | _ => none

variable (records : List (Nat × Bytes))

/-- No range of records needs more than 32 bits. -/
def NoWrap : Prop := ∀ r ∈ records, r.1 + r.2.length < 2 ^ 32

/-- No two ranges of records overlap. -/
def Disjoint : Prop :=
  records.Pairwise fun r r' => FlatFile.Apart r.1 r.2.length r'.1 r'.2.length

def ReadsBack (n : Node) : Event → Prop
  | .block pindex _ _ => ∃ entry, n.storage.entries pindex = some entry ∧
      n.storage.readBlock opts P params pindex entry = pindex.head?
  | .undo pindex blockundo _ _ => ∃ entry, n.storage.entries pindex = some entry ∧
      n.storage.readUndo P pindex entry = some blockundo

/-- The node is running, nothing wraps, no ranges overlap, and everything is read back. -/
def Intact : Option Node → Prop
  | none => False
  | some n => (∀ nFile, NoWrap (blocksIn opts n.log nFile) ∧ Disjoint (blocksIn opts n.log nFile)) ∧
      (∀ nFile, NoWrap (undosIn P opts n.log nFile) ∧ Disjoint (undosIn P opts n.log nFile)) ∧
      ∀ e ∈ n.log, ReadsBack P opts params n e

/-! ### The calls of a run -/

/-- The calls that a node makes: blocks have passed `CheckBlock`, and the undo record of a stored
block is the one that `ConnectBlock` has given for coins that a chain can hold. -/
def Valid : Op → Prop
  | .block block _ => checkBlock P int64Range params block true true = .ok () ∧ block.header.InRange
  | .undo pindex blockundo => ∃ block pprev mode view view', pindex = block :: pprev ∧
      connectBlock P params int64Range mode block pprev view = .ok (view', some blockundo) ∧
      CoinsGood view.coins ∧ pprev.length < 2 ^ 31

/-- A call with a block or a record that is valid. -/
abbrev ValidOp := { op : Op // Valid P params op }

def stepValid (n : Option Node) (op : ValidOp P params) : Option Node := Node.step P opts n op.1

/-- A block that is not stored yet is not too large to be read, and the undo records of a file with
the next one do not need more than 32 bits. -/
def FitsStorage : Option Node → Op → Prop
  | none, _ => True
  | some n, .block block pprev => n.storage.entries (block :: pprev) = none →
      (block.serialize true).length ≤ maxSize
  | some n, .undo pindex blockundo =>
    ∀ entry, n.storage.entries pindex = some entry → entry.undoPos = none →
      (n.storage.info entry.nFile).nUndoSize.toNat +
      (undoRecord P opts pindex blockundo).length < 2 ^ 32

end Tessera.BlockStorage
