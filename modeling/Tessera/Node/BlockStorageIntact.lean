import Tessera.Net.CompactBlockRelay
import Tessera.Node.BlockStorageSafe
import Tessera.Script.Templates

/-!
# Stored blocks and undo records stay intact

As long as every call stays within the limits of the files, records are placed one behind the other
in every file, and what an entry points to is the record that was written for it. The limits are
exact: the first call beyond them breaks what storage is for.
-/

namespace Tessera.BlockStorage

open Function Coins Lib Tx Validation FlatFile List

section Records

variable {P : Primitives} {opts : Options} {params : Params}

open Storage

/-! ### The records of a log -/

private theorem blocksIn_block (block : CBlock) (pprev : CBlockIndex) (nFile pos : Nat)
    (log : List Event) (k : Nat) : blocksIn opts (.block (block :: pprev) nFile pos :: log) k =
      if nFile = k then (pos, blockRecord opts block) :: blocksIn opts log k
      else blocksIn opts log k := by
  by_cases hk : nFile = k
  · simp [blocksIn, hk]
  · simp [blocksIn, hk]

private theorem undosIn_undo (pindex : CBlockIndex) (undo : CBlockUndo) (nFile pos : Nat)
    (log : List Event) (k : Nat) : undosIn P opts (.undo pindex undo nFile pos :: log) k =
      if nFile = k then (pos, undoRecord P opts pindex undo) :: undosIn P opts log k
      else undosIn P opts log k := by
  by_cases hk : nFile = k
  · simp [undosIn, hk]
  · simp [undosIn, hk]

variable {block : CBlock} {pprev pindex : CBlockIndex} {nFile pos : Nat} {undo : CBlockUndo}
  {s : Storage} {entry : StoredEntry}

private theorem mem_blocksIn {log : List Event}
    (h : .block (block :: pprev) nFile pos ∈ log) : (pos, blockRecord opts block) ∈
      blocksIn opts log nFile :=
  mem_filterMap.mpr ⟨_, h, if_pos rfl⟩

private theorem mem_undosIn {log : List Event} (h : .undo pindex undo nFile pos ∈ log) :
    (pos, undoRecord P opts pindex undo) ∈ undosIn P opts log nFile :=
  mem_filterMap.mpr ⟨_, h, if_pos rfl⟩

/-! ### The invariant -/

variable (P params) in
/-- A block that can be read back. -/
structure BlockOk (block : CBlock) : Prop where
  checked : BlockChecked block
  range : block.header.InRange
  pow : checkProofOfWork params (block.header.getPoWHash P) block.header.nBits = true
  size : (block.serialize true).length ≤ maxSize

variable (P opts params) in
/-- Records are one behind the other, and the entries point to them. -/
structure Inv (n : Node) : Prop where
  length : n.storage.blockfileInfo.length ≤ n.storage.cursor.fileNum + 1
  bound : ∀ k, (n.storage.info k).nSize.toNat ≤ fileBound
  blocks : ∀ k, Placed (n.storage.info k).nSize.toNat (n.storage.blk k) (blocksIn opts n.log k)
  undos : ∀ k, Placed (n.storage.info k).nUndoSize.toNat (n.storage.rev k) (undosIn P opts n.log k)
  files : ∀ pindex entry, n.storage.entries pindex = some entry → entry.nFile <
    n.storage.blockfileInfo.length
  block_entry : ∀ pindex nFile pos, .block pindex nFile pos ∈ n.log → ∃ block pprev entry,
    pindex = block :: pprev ∧ n.storage.entries pindex = some entry ∧ entry.nFile = nFile ∧
      entry.nDataPos.toNat = pos + 8 ∧ BlockOk P params block
  undo_entry : ∀ pindex undo nFile pos, .undo pindex undo nFile pos ∈ n.log →
    ∃ entry nUndoPos, n.storage.entries pindex = some entry ∧ entry.nFile = nFile ∧
      entry.undoPos = some nUndoPos ∧ nUndoPos.toNat = pos + 8 ∧ undo.Storable

private theorem inv_init : Inv P opts params .init where
  length := Nat.zero_le _
  bound := fun _ => Nat.zero_le _
  blocks := fun _ => placed_nil _ _
  undos := fun _ => placed_nil _ _
  files := nofun
  block_entry := nofun
  undo_entry := nofun

/-! ### The calls keep the invariant -/

private theorem toNat_storageHeaderBytes : storageHeaderBytes.toNat = 8 := rfl

private theorem toNat_dataPos {n : UInt32} (h : n.toNat + 8 < 2 ^ 32) :
    (n + storageHeaderBytes).toNat = n.toNat + 8 := by
  rw [UInt32.toNat_add, toNat_storageHeaderBytes, Nat.mod_eq_of_lt h]

private theorem Valid.blockOk (h : Valid P params (.block block pprev))
    (hsize : (block.serialize true).length ≤ maxSize) : BlockOk P params block := by
  obtain ⟨hcheck, hrange⟩ := h
  refine ⟨checkBlock_spec hcheck, hrange, ?_, hsize⟩
  obtain ⟨_, hheader, -⟩ := bind_eq_ok_iff.mp hcheck
  simpa [onlyIf, checkBlockHeader] using hheader

theorem Valid.storable (h : Valid P params (.undo pindex undo)) : undo.Storable := by
  obtain ⟨block, pprev, mode, view, view', -, hconnect, hgood, hheight⟩ := h
  rcases connectBlock_spec hconnect with ⟨-, hnone, -⟩ | ⟨-, undo, hsome, hconnected⟩
  · cases hnone
  · cases hsome
    exact hconnected.storable hgood hheight

variable {n : Node}

section Arrived

variable {s' : Storage}

/-- The node once the record of a block is written behind the others of a file. -/
def Node.arrived (n : Node) (s' : Storage) (block : CBlock) (pprev : CBlockIndex)
    (nFile : Nat) : Node :=
  let entry : StoredEntry := ⟨nFile, (n.storage.info nFile).nSize + storageHeaderBytes, none⟩
  ⟨{ s' with entries := update s'.entries (block :: pprev) (some entry) },
    .block (block :: pprev) nFile (n.storage.info nFile).nSize.toNat :: n.log⟩

variable (h : Inv P opts params n) (hwrote : WroteBlock n.storage nFile (blockRecord opts block) s')

include hwrote

private theorem entries_arrived (hne : pindex ≠ block :: pprev) :
    (n.arrived s' block pprev nFile).storage.entries pindex = n.storage.entries pindex := by
  rw [Node.arrived]
  dsimp only
  rw [update_of_ne hne, hwrote.entries]

variable (hentry : n.storage.entries (block :: pprev) = none)

include hentry in
private theorem entries_arrived_of_some (hsome : n.storage.entries pindex = some entry) :
    (n.arrived s' block pprev nFile).storage.entries pindex = some entry := by
  refine (entries_arrived hwrote ?_).trans hsome
  rintro rfl
  rw [hentry] at hsome
  cases hsome

include h

private theorem Inv.blocks_arrived (k : Nat) : Placed (s'.info k).nSize.toNat (s'.blk k)
    (blocksIn opts (n.arrived s' block pprev nFile).log k) := by
  rw [Node.arrived, blocksIn_block, hwrote.size]
  by_cases hk : k = nFile
  · subst hk
    obtain ⟨m, hfile⟩ := hwrote.written
    rw [if_pos rfl, if_pos rfl, hfile]
    exact ((h.blocks k).extend 0 m).write 0 (blockRecord opts block)
  · rw [if_neg hk, if_neg (Ne.symm hk)]
    exact (hwrote.others k hk).placed (h.blocks k)

private theorem Inv.files_arrived
    (hsome : (n.arrived s' block pprev nFile).storage.entries pindex = some entry) :
    entry.nFile < s'.blockfileInfo.length := by
  by_cases hne : pindex = block :: pprev
  · rw [hne, Node.arrived] at hsome
    dsimp only at hsome
    rw [update_self] at hsome
    cases hsome
    exact hwrote.file
  · rw [entries_arrived hwrote hne] at hsome
    exact lt_of_lt_of_le (h.files pindex entry hsome) hwrote.known

include hentry

private theorem Inv.block_entry_arrived (hok : BlockOk P params block) {nFile' : Nat}
    (hmem : .block pindex nFile' pos ∈ (n.arrived s' block pprev nFile).log) :
    ∃ block' pprev' entry,
      pindex = block' :: pprev' ∧ (n.arrived s' block pprev nFile).storage.entries
        pindex = some entry ∧
        entry.nFile = nFile' ∧ entry.nDataPos.toNat = pos + 8 ∧ BlockOk P params block' := by
  obtain heq | hmem := mem_cons.mp hmem
  · cases heq
    have hdata := toNat_dataPos
      (lt_of_le_of_lt (Nat.add_le_add_right (h.bound nFile) 8) (by decide))
    exact ⟨block, pprev, _, rfl, update_self .., rfl, hdata, hok⟩
  · obtain ⟨block', pprev', entry, rfl, hsome, hrest⟩ := h.block_entry pindex nFile' pos hmem
    exact ⟨block', pprev', entry, rfl, entries_arrived_of_some hwrote hentry hsome, hrest⟩

private theorem Inv.arrived (hok : BlockOk P params block) : Inv P opts params
    (n.arrived s' block pprev nFile) where
  length := le_of_eq hwrote.length
  bound k := by
    refine (le_of_eq (hwrote.size k)).trans ?_
    split
    next hk =>
      rw [hk]
      exact hwrote.bound
    next hk => exact h.bound k
  blocks k := h.blocks_arrived hwrote k
  undos k := by
    have hplaced := (hwrote.undos k).placed (h.undos k)
    rw [← hwrote.undoSize k] at hplaced
    exact hplaced
  files _ _ := h.files_arrived hwrote
  block_entry _ _ _ := h.block_entry_arrived hwrote hentry hok
  undo_entry pindex undo nFile' pos hmem := by
    have hmem' : .undo pindex undo nFile' pos ∈ n.log := (mem_cons.mp hmem).resolve_left nofun
    obtain ⟨entry, nUndoPos, hsome, hrest⟩ := h.undo_entry pindex undo nFile' pos hmem'
    exact ⟨entry, nUndoPos, entries_arrived_of_some hwrote hentry hsome, hrest⟩

end Arrived

/-- A block that has arrived is written behind the others of its file. -/
theorem Inv.blockArrived (h : Inv P opts params n) (hvalid : Valid P params (.block block pprev))
    (hfits : n.storage.entries (block :: pprev) = none → (block.serialize true).length ≤ maxSize) :
    ∃ n', n.blockArrived opts block pprev = some n' ∧ Inv P opts params n' := by
  cases hentry : n.storage.entries (block :: pprev) with
  | some entry => exact ⟨n, by rw [Node.blockArrived, hentry]; rfl, h⟩
  | none =>
    obtain ⟨nFile, s', hwrite, hwrote⟩ := writeBlock_spec opts block
      (UInt32.ofNat pprev.length) h.length h.bound (hfits hentry)
    refine ⟨n.arrived s' block pprev nFile, ?_, h.arrived hwrote hentry
      (hvalid.blockOk (hfits hentry))⟩
    simp only [Node.blockArrived, hentry, hwrite, Option.map_some, UInt32.add_sub_cancel]
    rfl

private theorem blockConnected_eq (hentry : n.storage.entries pindex = some entry)
    (hundo : entry.undoPos = none) :
    n.blockConnected P opts pindex undo = ⟨n.storage.writeUndo opts P undo pindex entry,
      .undo pindex undo entry.nFile (n.storage.info entry.nFile).nUndoSize.toNat :: n.log⟩ := by
  simp [Node.blockConnected, hentry, hundo]

section Connected

variable {s' : Storage} (h : Inv P opts params n) (hentry : n.storage.entries pindex = some entry)
  (hundo : entry.undoPos = none)
  (hwrote : WroteUndo n.storage entry.nFile (undoRecord P opts pindex undo) s')
  (hentries : s'.entries = update n.storage.entries pindex
    (some { entry with undoPos := some ((n.storage.info entry.nFile).nUndoSize +
      storageHeaderBytes) }))

include h hwrote in
private theorem Inv.undos_connected (k : Nat) : Placed (s'.info k).nUndoSize.toNat (s'.rev k)
    (undosIn P opts (.undo pindex undo entry.nFile (n.storage.info entry.nFile).nUndoSize.toNat ::
      n.log) k) := by
  rw [undosIn_undo, hwrote.undoSize]
  by_cases hk : k = entry.nFile
  · subst hk
    obtain ⟨m, hfile⟩ := hwrote.written
    rw [if_pos rfl, if_pos rfl]
    exact hfile.placed (((h.undos entry.nFile).extend 0 m).write 0 (undoRecord P opts pindex undo))
  · rw [if_neg hk, if_neg (Ne.symm hk), hwrote.others k hk]
    exact h.undos k

include h hentry hentries

private theorem Inv.block_entry_connected {pindex' : CBlockIndex}
    (hmem : .block pindex' nFile pos ∈ n.log) :
    ∃ block pprev entry', pindex' = block :: pprev ∧ s'.entries pindex' = some entry' ∧
    entry'.nFile = nFile ∧ entry'.nDataPos.toNat = pos + 8 ∧ BlockOk P params block := by
  obtain ⟨block, pprev, old, rfl, hold, hrest⟩ := h.block_entry pindex' nFile pos hmem
  by_cases hne : block :: pprev = pindex
  · subst hne
    rw [hentry] at hold
    cases hold
    have hself : s'.entries (block :: pprev) = some _ := hentries ▸ update_self ..
    exact ⟨block, pprev, _, rfl, hself, hrest⟩
  · exact ⟨block, pprev, old, rfl, by rw [hentries, update_of_ne hne, hold], hrest⟩

include hundo

private theorem Inv.undo_entry_connected {pindex' : CBlockIndex} {undo' : CBlockUndo}
    (hmem : .undo pindex' undo' nFile pos ∈ n.log) : ∃ entry' nUndoPos,
    s'.entries pindex' = some entry' ∧
      entry'.nFile = nFile ∧ entry'.undoPos = some nUndoPos ∧ nUndoPos.toNat = pos + 8 ∧
      undo'.Storable := by
  obtain ⟨old, nUndoPos, hold, hfile, hpos, hrest⟩ := h.undo_entry pindex' undo' nFile pos hmem
  have hne : pindex' ≠ pindex := by
    rintro rfl
    rw [hentry] at hold
    cases hold
    rw [hundo] at hpos
    cases hpos
  exact ⟨old, nUndoPos, by rw [hentries, update_of_ne hne, hold], hfile, hpos, hrest⟩

end Connected

/-- The undo record of a connected block is written behind the others of its file. -/
theorem Inv.blockConnected (h : Inv P opts params n) (hvalid : Valid P params (.undo pindex undo))
    (hfits : FitsStorage P opts (some n) (.undo pindex undo)) :
    Inv P opts params (n.blockConnected P opts pindex undo) := by
  cases hentry : n.storage.entries pindex with
  | none =>
    rw [Node.blockConnected, hentry]
    exact h
  | some entry =>
    cases hundo : entry.undoPos with
    | some nUndoPos =>
      have hstep : n.blockConnected P opts pindex undo = n := by
        simp [Node.blockConnected, hentry, hundo]
      rwa [hstep]
    | none =>
      have hsize := hfits entry hentry hundo
      obtain ⟨hwrote, hentries⟩ := writeUndo_spec (h.files pindex entry hentry) hundo hsize
      rw [blockConnected_eq hentry hundo]
      generalize n.storage.writeUndo opts P undo pindex entry = s' at hwrote hentries
      refine ⟨?_, fun k => ?_, fun k => ?_, h.undos_connected hwrote,
        fun pindex' entry' hsome => ?_,
        fun pindex' nFile pos hmem => ?_, fun pindex' undo' nFile pos hmem => ?_⟩
      · rw [hwrote.length, hwrote.cursor]
        exact h.length
      · rw [hwrote.size]
        exact h.bound k
      · rw [hwrote.size, hwrote.blk]
        exact h.blocks k
      · rw [hwrote.length]
        by_cases hne : pindex' = pindex
        · rw [hne, hentries, update_self] at hsome
          cases hsome
          exact h.files pindex entry hentry
        · rw [hentries, update_of_ne hne] at hsome
          exact h.files pindex' entry' hsome
      · exact h.block_entry_connected hentry hentries ((mem_cons.mp hmem).resolve_left nofun)
      · obtain heq | hmem := mem_cons.mp hmem
        · cases heq
          have hlen := length_undoRecord P opts pindex undo
          have hself : s'.entries pindex = some _ := hentries ▸ update_self ..
          exact ⟨_, _, hself, rfl, rfl, toNat_dataPos (by omega), hvalid.storable⟩
        · exact h.undo_entry_connected hentry hundo hentries hmem

/-! ### The invariant is enough -/

/-- Records of which a file holds one behind the other do not overlap. -/
theorem noWrap_of_placed {size : Nat} {file : Bytes} {records : List (Nat × Bytes)}
    (h : Placed size file records) (hsize : size < 2 ^ 32) : NoWrap records ∧ Disjoint records :=
  ⟨fun r hr => lt_of_le_of_lt (h.within r hr) hsize, h.apart⟩

/-- What is read at the position of a record, if the size in its header is not too large. -/
theorem readRawBlock_eq {nPos : UInt32} {data : Bytes} (hpos : nPos.toNat = pos + 8)
    (hholds : HoldsAt (s.blk nFile) pos (storageHeader opts (UInt32.ofNat data.length) ++ data)) :
    ∃ rest, s.readRawBlock opts ⟨nFile, nPos⟩ =
      if maxSize < data.length % 2 ^ 32 then none
      else some ((data ++ rest).take (data.length % 2 ^ 32)) := by
  have hheader := toNat_storageHeaderBytes
  have hstart : (nPos - storageHeaderBytes).toNat = pos := by
    rw [UInt32.toNat_sub_of_le _ _ (by rw [UInt32.le_iff_toNat_le]; omega)]
    omega
  have hmagic : opts.messageStart.data.length = 4 := Blob.size_eq _
  have hdata := hholds.drop_eq
  generalize (s.blk nFile).drop (pos + _) = rest at hdata
  generalize hsize : serializeUInt32 (UInt32.ofNat data.length) = size
  have hlen : size.length = 4 := by rw [← hsize, serializeUInt32, writeLE_length]
  have hvalue : readLE size = data.length % 2 ^ 32 := by
    rw [← hsize, serializeUInt32, readLE_writeLE]
    · exact UInt32.toNat_ofNat'
    · exact UInt32.toNat_lt _
  rw [storageHeader, hsize, append_assoc, append_assoc] at hdata
  have hdrop : (opts.messageStart.data ++ (size ++ (data ++ rest))).drop 8 = data ++ rest := by
    rw [← append_assoc, drop_left' (by rw [length_append, hmagic, hlen])]
  have hfield : ((opts.messageStart.data ++ (size ++ (data ++ rest))).drop 4).take 4 = size := by
    rw [drop_left' hmagic, take_left' hlen]
  have hnot : ¬ nPos < storageHeaderBytes := by
    rw [UInt32.lt_iff_toNat_lt]
    omega
  refine ⟨rest, ?_⟩
  simp only [readRawBlock, if_neg hnot, hstart, hdata, hdrop, hfield, hvalue, take_left' hmagic]
  by_cases hmax : maxSize < data.length % 2 ^ 32
  · rw [if_pos (.inr (.inr (.inl hmax))), if_pos hmax]
  rw [if_neg hmax, if_neg]
  simp only [length_append]
  rintro (hshort | hmagic' | hmax' | hshort)
  · omega
  · exact hmagic' rfl
  · exact hmax hmax'
  · omega

/-- A block is read back from the record that its entry points to. -/
theorem readBlock_eq (hok : BlockOk P params block) (hpos : entry.nDataPos.toNat = pos + 8)
    (hholds : HoldsAt (s.blk entry.nFile) pos (blockRecord opts block)) :
    s.readBlock opts P params (block :: pprev) entry = some block := by
  have hsize := hok.size
  have hmod : (block.serialize true).length % 2 ^ 32 = (block.serialize true).length :=
    Nat.mod_eq_of_lt (lt_of_le_of_lt hsize (by decide))
  obtain ⟨rest, hraw⟩ := readRawBlock_eq hpos hholds
  rw [hmod, if_neg (not_lt.mpr hsize), take_left] at hraw
  have hread : CBlock.unserialize.run (block.serialize true) = .ok (block, []) := by
    have h := reads_block hok.checked hok.range hsize []
    rwa [append_nil] at h
  simp only [readBlock, hraw, hread, hok.pow]
  rw [if_neg (by decide), if_neg fun hne => hne rfl]

private theorem readUndo_eq {nUndoPos : UInt32} (hstorable : undo.Storable)
    (hundo : entry.undoPos = some nUndoPos) (hpos : nUndoPos.toNat = pos + 8)
    (hholds : HoldsAt (s.rev entry.nFile) pos (undoRecord P opts pindex undo)) :
    s.readUndo P pindex entry = some undo := by
  have hlen : (storageHeader opts (UInt32.ofNat undo.serialize.length)).length = 8 := by
    rw [storageHeader, length_append, serializeUInt32, writeLE_length, Blob.size_eq]
  have hbehind := hholds.of_append
  rw [hlen, ← hpos] at hbehind
  rw [readUndo, hundo, Option.bind_some, hbehind.drop_eq]
  exact readBlockUndo_append hstorable _ _

private theorem Inv.intact (h : Inv P opts params n) : Intact P opts params (some n) := by
  refine ⟨fun k => noWrap_of_placed (h.blocks k) (lt_of_le_of_lt (h.bound k) (by decide)),
    fun k => noWrap_of_placed (h.undos k) (UInt32.toNat_lt _), ?_⟩
  rintro (⟨pindex, nFile, pos⟩ | ⟨pindex, undo, nFile, pos⟩) hmem
  · obtain ⟨block, pprev, entry, rfl, hentry, rfl, hpos, hok⟩ := h.block_entry pindex nFile pos hmem
    exact ⟨entry, hentry, readBlock_eq hok hpos
      ((h.blocks entry.nFile).holds _ (mem_blocksIn hmem))⟩
  obtain ⟨entry, nUndoPos, hentry, rfl, hundo, hpos, hstorable⟩ :=
    h.undo_entry pindex undo nFile pos hmem
  exact ⟨entry, hentry, readUndo_eq hstorable hundo hpos
    ((h.undos entry.nFile).holds _ (mem_undosIn hmem))⟩

/-! ### The limits are exact -/

/-- Where `WriteBlock` says that the block is, there is the record of the block, of whatever size.
-/
theorem holdsAt_writeBlock {s' : Storage} {nHeight : UInt32} {pos : FlatFilePos}
    (h : s.writeBlock opts block nHeight = some (pos, s')) :
    HoldsAt (s'.blk pos.nFile) (pos.nPos - storageHeaderBytes).toNat (blockRecord opts block) := by
  cases hfind : s.findNextBlockPos opts
    (UInt32.ofNat (block.serialize true).length + storageHeaderBytes)
      nHeight block.header.nTime.toUInt64 with
  | none =>
    simp only [writeBlock, hfind] at h
    cases h
  | some found =>
    simp only [writeBlock, hfind] at h
    cases h
    dsimp only
    rw [UInt32.add_sub_cancel, update_self]
    exact holdsAt_writeAt 0 _ _ _

/-- A block of which the size is in the header of its record is not read if it is too large. -/
theorem readBlock_of_large
    (hholds : HoldsAt (s.blk entry.nFile) (entry.nDataPos - storageHeaderBytes).toNat
      (blockRecord opts block))
    (hlarge : maxSize < (block.serialize true).length % 2 ^ 32) :
    s.readBlock opts P params pindex entry = none := by
  have hraw : s.readRawBlock opts ⟨entry.nFile, entry.nDataPos⟩ = none := by
    by_cases hbefore : entry.nDataPos < storageHeaderBytes
    · rw [readRawBlock, if_pos hbefore]
    have hle := UInt32.not_lt.mp hbefore
    have hpos : entry.nDataPos.toNat = (entry.nDataPos - storageHeaderBytes).toNat + 8 := by
      rw [UInt32.toNat_sub_of_le _ _ hle]
      exact (Nat.sub_add_cancel hle).symm
    obtain ⟨rest, hraw⟩ := readRawBlock_eq hpos hholds
    rw [hraw, if_pos hlarge]
  simp [readBlock, hraw]

/-- A block that is too large to be read is not read back, or its range wraps around. -/
theorem not_intact_of_large (hnone : n.storage.entries (block :: pprev) = none)
    (hlarge : maxSize < (block.serialize true).length) :
    ¬ Intact P opts params (n.blockArrived opts block pprev) := by
  intro hintact
  cases hwrite : n.storage.writeBlock opts block (UInt32.ofNat pprev.length) with
  | none =>
    simp only [Node.blockArrived, hnone, hwrite] at hintact
    exact hintact
  | some written =>
    obtain ⟨pos, s'⟩ := written
    simp only [Node.blockArrived, hnone, hwrite] at hintact
    obtain ⟨hblocks, -, hreads⟩ := hintact
    have hwrap := (hblocks pos.nFile).1 _ (mem_blocksIn mem_cons_self)
    obtain ⟨entry, hentry, hread⟩ := hreads _ mem_cons_self
    dsimp only at hentry
    rw [update_self] at hentry
    cases hentry
    rw [length_blockRecord] at hwrap
    -- the size fits into its field, and is more than `ReadRawBlock` accepts
    have hmod : (block.serialize true).length % 2 ^ 32 = (block.serialize true).length :=
      Nat.mod_eq_of_lt (by omega)
    rw [readBlock_of_large (holdsAt_writeBlock hwrite) (hmod.symm ▸ hlarge)] at hread
    cases hread

private theorem fitsStorage_of_intact
    (h : Intact P opts params (some (n.blockConnected P opts pindex undo))) :
    FitsStorage P opts (some n) (.undo pindex undo) := by
  intro entry hentry hundo
  rw [blockConnected_eq hentry hundo] at h
  exact (h.2.1 entry.nFile).1 _ (mem_undosIn mem_cons_self)

/-! ### Every run -/

variable (P opts params) in
def Running : Option Node → Prop
  | none => False
  | some n => Inv P opts params n

theorem Running.stepValid {n : Option Node} (h : Running P opts params n) (op : ValidOp P params)
    (hfits : FitsStorage P opts n op.1) : Running P opts params (stepValid P opts params n op) := by
  obtain ⟨op, hvalid⟩ := op
  cases n with
  | none => exact h.elim
  | some n =>
    cases op with
    | block block pprev =>
      obtain ⟨n', hstep, hinv⟩ := Inv.blockArrived h hvalid hfits
      exact (congrArg (Running P opts params) hstep).mpr hinv
    | undo pindex undo => exact Inv.blockConnected h hvalid hfits

private theorem Running.fitsStorage {n : Option Node} (h : Running P opts params n)
    (op : ValidOp P params)
    (hintact : Intact P opts params (BlockStorage.stepValid P opts params n op)) :
    FitsStorage P opts n op.1 := by
  obtain ⟨op, hvalid⟩ := op
  cases n with
  | none => exact h.elim
  | some n =>
    cases op with
    | block block pprev =>
      intro hnone
      by_contra hlarge
      exact not_intact_of_large hnone (not_le.mp hlarge) hintact
    | undo pindex undo => exact fitsStorage_of_intact hintact

/-- Storage is intact after every call of a run exactly if every call stays within the limits of the
files. -/
theorem storage_intact_iff (ops : List (ValidOp P params)) :
    Along (stepValid P opts params) (Intact P opts params) (some .init) ops ↔
      Meets (stepValid P opts params) (fun n op => FitsStorage P opts n op.1) (some .init) ops := by
  refine along_iff_meets (J := Running P opts params) ?_ ?_ ?_ inv_init
  · intro n h
    cases n with
    | none => exact h.elim
    | some n => exact Inv.intact h
  · exact fun n op h hfits => h.stepValid op hfits
  · exact fun n op h hintact => h.fitsStorage op hintact

end Records

/-! ### A block whose undo record needs more than 32 bits

A block spends many small outputs that anyone can spend, with scripts as long as scripts may be. An
input takes 41 bytes of the block, and about 10000 bytes of its undo record, so that a block of 18
megabytes has an undo record of more than 4 gigabytes.
-/

namespace ManyInputs

open Script CTransaction CBlockIndex

open Net.ManyTransactions (primitives numbered header coinbase)

/-- As many bytes as an element of the stack may have. -/
def element : Bytes := List.replicate 520 1

/-- An output that anyone can spend, of a script that is almost as long as scripts may be. -/
def coin : Coin := ⟨⟨0, pushes element 19⟩, false, 1⟩

def input (k : Nat) : CTxIn := ⟨⟨.fill 32 1, UInt32.ofNat k⟩, [], 0xffffffff, []⟩

/-- A transaction that spends `n` outputs. -/
def spendAll (n : Nat) : CTransaction := ⟨(List.range n).map input, [⟨0, [0x6a]⟩], 1, 1⟩

def blockOf (n : Nat) : CBlock := ⟨header, [coinbase, spendAll n]⟩

def undoOf (n : Nat) : CBlockUndo := ⟨[⟨List.replicate n coin⟩]⟩

/-- The block before it. -/
def pprev : CBlockIndex := [TwoBlocks.genesis]

/-- A view in which the outputs of a transaction are unspent. -/
def view : CCoinsView where
  coins o := if o.hash = .fill 32 1 then some coin else none
  hashBlock := CBlockIndex.getBlockHash primitives pprev

private theorem length_element : element.length = 520 := length_replicate

private theorem length_script : coin.out.scriptPubKey.length = 9937 :=
  length_pushes length_element 19

private theorem coinsGood_view : CoinsGood view.coins := by
  intro o c hcoin
  have hc : c = coin := by
    rw [view] at hcoin
    dsimp only at hcoin
    split at hcoin
    · exact (Option.some.inj hcoin).symm
    · cases hcoin
  subst hc
  refine ⟨⟨rfl, ?_, by decide⟩, by decide, ?_⟩
  · rw [length_script]
    decide
  · rw [isUnspendable, length_script, coin, head?_pushes length_element]
    rfl

/-! ### The checks of the block by itself -/

variable {n : Nat} {flags : ScriptFlags}

private theorem nodup_prevouts (h : n < 2 ^ 32) : ((spendAll n).vin.map CTxIn.prevout).Nodup := by
  rw [spendAll, map_map]
  refine (nodup_map_iff_inj_on nodup_range).mpr fun i hi j hj hij => ?_
  rw [mem_range] at hi hj
  have hn := congrArg (fun o => o.n.toNat) hij
  simpa [input, UInt32.toNat_ofNat_of_lt' (hi.trans h), UInt32.toNat_ofNat_of_lt' (hj.trans h)]
    using hn

private theorem length_input (k : Nat) : (input k).serialize.length = 41 := by
  simp [input, CTxIn.serialize, COutPoint.serialize, serializeBytes, serializeUInt32,
    writeCompactSize, Blob.size_eq]

private theorem length_flatMap_input (ks : List Nat) :
    ((ks.map input).flatMap CTxIn.serialize).length = 41 * ks.length := by
  induction ks with
  | nil => rfl
  | cons k ks ih =>
    rw [map_cons, flatMap_cons, length_append, length_input, ih, length_cons]
    omega

private theorem serialize_spendAll (n : Nat) : (spendAll n).serialize false =
    serializeUInt32 1 ++ serializeVector CTxIn.serialize ((List.range n).map input) ++
      serializeVector CTxOut.serialize [⟨0, [0x6a]⟩] ++ serializeUInt32 1 := by
  simp [serialize, spendAll]

private theorem length_spendAll (n : Nat) : 41 * n ≤ ((spendAll n).serialize false).length ∧
    ((spendAll n).serialize false).length ≤ 41 * n + 28 := by
  have hcount := length_writeCompactSize_le ((range n).map input).length
  have hinputs := length_flatMap_input (range n)
  have houtputs : (serializeVector CTxOut.serialize [⟨0, [0x6a]⟩]).length = 11 := rfl
  rw [length_range] at hinputs
  rw [serialize_spendAll, length_append, length_append, length_append, serializeVector,
    length_append, serializeUInt32, writeLE_length]
  omega

private theorem getHash_spendAll (h : 2 ≤ n) : (spendAll n).getHash primitives =
    numbered (serializeUInt32 1) := by
  have hlength := (length_spendAll n).1
  rw [getHash, serialize_spendAll]
  refine Net.ManyTransactions.hash_append (by simp [serializeUInt32]) ?_
  rw [← serialize_spendAll]
  omega

private theorem isCoinBase_spendAll (n : Nat) : (spendAll n).isCoinBase = false := by
  match n with
  | 0 | 1 => rfl
  | n + 2 => rw [isCoinBase, spendAll, range_succ_eq_map, range_succ_eq_map]; rfl

private theorem checkTransaction_spendAll (hpos : 0 < n) (h : n ≤ 700000) :
    checkTransaction int64Range (spendAll n) = .ok () := by
  have hvin : (spendAll n).vin.isEmpty = false := by
    rw [isEmpty_eq_false_iff, spendAll, Ne, map_eq_nil_iff, range_eq_nil]
    omega
  have hsize : decide (maxBlockWeight < ((spendAll n).serialize false).length *
      witnessScaleFactor) = false := by
    have hlength := (length_spendAll n).2
    simp only [decide_eq_false_iff_not, maxBlockWeight, witnessScaleFactor, mul_one]
    omega
  have hnodup : decide ((spendAll n).vin.map CTxIn.prevout).Nodup :=
    decide_eq_true (nodup_prevouts (by omega))
  have hform : checkInputForm (spendAll n) = .ok () := by
    have hnull : ((spendAll n).vin.any fun txin => txin.prevout.isNull) = false := by
      rw [spendAll, any_map, any_eq_false]
      intro k _
      exact Bool.false_ne_true
    rw [checkInputForm, isCoinBase_spendAll, hnull]
    rfl
  rw [checkTransaction, hvin, hsize, hnodup, hform]
  rfl

theorem map_getHash_blockOf (h : 2 ≤ n) : ((blockOf n).vtx.map fun tx => tx.getHash primitives) =
    [numbered (serializeUInt32 0), numbered (serializeUInt32 1)] := by
  rw [blockOf, map_cons, map_cons, map_nil, getHash_spendAll h]
  rfl

private theorem getLegacySigOpCount_spendAll (n : Nat) : getLegacySigOpCount (spendAll n) = 0 := by
  have hinputs : (fun txin : CTxIn => getSigOpCount false txin.scriptSig) ∘
    input = fun _ => 0 := rfl
  have houtputs : ((spendAll n).vout.map fun txout => getSigOpCount false txout.scriptPubKey).sum =
    0 := rfl
  rw [getLegacySigOpCount, houtputs, spendAll, map_map, hinputs]
  simp

theorem checkBlock_blockOf (h2 : 2 ≤ n) (h : n ≤ 700000) :
    checkBlock primitives int64Range TwoBlocks.network (blockOf n) true true = .ok () := by
  have hheader : checkBlockHeader primitives TwoBlocks.network header = .ok () := rfl
  have hmerkle : checkMerkleRoot primitives (blockOf n) = .ok () := by
    have hroot : blockMerkleRoot primitives (blockOf n) = (.null 32, false) := by
      rw [blockMerkleRoot, map_getHash_blockOf h2]
      rfl
    rw [checkMerkleRoot, hroot]
    rfl
  have hsize : ((blockOf n).serialize false).length ≤ 41 * n + 171 := by
    have hcoinbase : (coinbase.serialize false).length = 62 := rfl
    have hspend := (length_spendAll n).2
    rw [CBlock.serialize, length_append, CBlockHeader.length_serialize, serializeVector,
      length_append, blockOf, flatMap_cons, flatMap_cons, flatMap_nil, length_append, length_append]
    have hcount : (writeCompactSize [coinbase, spendAll n].length).length = 1 := rfl
    rw [hcount, length_nil]
    omega
  have htxs : checkTransactions primitives int64Range (blockOf n).vtx = .ok () := by
    refine checkTransactions_of_forall fun tx htx => ?_
    rw [blockOf, mem_cons, mem_singleton] at htx
    rcases htx with rfl | rfl
    · decide +kernel
    · exact checkTransaction_spendAll (by omega) h
  have hsigops : ((blockOf n).vtx.map getLegacySigOpCount).sum = 0 := by
    rw [blockOf, map_cons, map_cons, getLegacySigOpCount_spendAll]
    rfl
  have hothers : (blockOf n).vtx.tail.any isCoinBase = false := by
    rw [blockOf, tail_cons, any_cons, isCoinBase_spendAll]
    rfl
  exact checkBlock_eq_ok _ _ hheader hmerkle (Nat.le_of_ble_eq_true rfl)
    (by rw [maxBlockWeight]; omega) rfl hothers htxs hsigops

/-! ### Connecting the block -/

private theorem coins_input (k : Nat) : view.coins (input k).prevout = some coin := by
  simp [view, input]

variable {v : CCoinsView} {vin : List CTxIn}

private theorem accessCoin_eq {o : COutPoint} (h : v.coins o = some coin) : Validation.accessCoin v
    o = coin := by
  rw [Validation.accessCoin, h]
  rfl

/-- The inputs spend such outputs. -/
def Funded (v : CCoinsView) (vin : List CTxIn) : Prop := ∀ txin ∈ vin,
    v.coins txin.prevout = some coin

private theorem checkInputValues_eq {nSpendHeight : Int} (h : Funded v vin) :
    checkInputValues int64Range v nSpendHeight 0 vin = .ok 0 := by
  induction vin with
  | nil => rfl
  | cons txin rest ih =>
    rw [checkInputValues, accessCoin_eq (h txin mem_cons_self)]
    exact ih fun txin' hmem => h txin' (mem_cons_of_mem txin hmem)

private theorem spendInputs_eq {ρ : Type} (h : Funded v vin)
    (hnodup : (vin.map CTxIn.prevout).Nodup) :
    ∃ v' : CCoinsView, (spendInputs vin v : Except (Failure ρ) _) =
      .ok (List.replicate vin.length coin, v') := by
  induction vin generalizing v with
  | nil => exact ⟨v, rfl⟩
  | cons txin rest ih =>
    rw [map_cons, nodup_cons] at hnodup
    have hspend : Validation.spendCoin v txin.prevout =
        ((true, coin), { v with coins := update v.coins txin.prevout none }) := by
      rw [Validation.spendCoin, h txin mem_cons_self]
    -- the other inputs spend other coins
    obtain ⟨v', hrest⟩ := ih (v := { v with coins := update v.coins txin.prevout none })
      (fun txin' hmem => by
        have hne : txin'.prevout ≠ txin.prevout := fun heq =>
          hnodup.1 (heq ▸ mem_map_of_mem hmem)
        dsimp only
        rw [update_of_ne hne]
        exact h txin' (mem_cons_of_mem txin hmem)) hnodup.2
    refine ⟨v', ?_⟩
    rw [spendInputs, hspend]
    rw [hrest]
    rfl

private theorem failingInput_eq (hpush : .sigPushOnly ∉ flags) (hclean : .cleanStack ∉ flags)
    (hp2sh : .p2sh ∈ flags) (h : Funded v (spendAll n).vin) :
    failingInput primitives flags (spendAll n) v = none := by
  rw [failingInput, isCoinBase_spendAll]
  refine findSome?_eq_none_iff.mpr fun i _ => ?_
  obtain ⟨k, -, hk⟩ := mem_map.mp (get_mem (spendAll n).vin i)
  have htrue : castToBool element := rfl
  have hverify : ∀ checker : Checker Unit,
      verifyScript primitives flags checker [] (pushes element 19) [] = pure () := fun checker =>
    verifyScript_pushes length_element htrue hpush hclean hp2sh (le_refl 18)
  have hsig : ((spendAll n).vin.get i).scriptSig = [] := by rw [← hk]; rfl
  have hwitness : ((spendAll n).vin.get i).scriptWitness = [] := by rw [← hk]; rfl
  have hscript : coin.out.scriptPubKey = pushes element 19 := rfl
  rw [accessCoin_eq (h _ (get_mem (spendAll n).vin i)), scriptCheck]
  simp only [hsig, hwitness, hscript, hverify, Comp.exec_pure]

private theorem getTransactionSigOpCost_eq (flags : ScriptFlags) (h : Funded v (spendAll n).vin) :
    getTransactionSigOpCost (spendAll n) v flags = 0 := by
  have hlong : 42 < coin.out.scriptPubKey.length := by
    rw [length_script]
    decide
  have hnot : isPayToScriptHash coin.out.scriptPubKey = false :=
    isPayToScriptHash_of_length (by omega)
  have hscriptHash : getP2SHSigOpCount (spendAll n) v = 0 := by
    rw [getP2SHSigOpCount, isCoinBase_spendAll]
    refine List.sum_eq_zero_iff_forall_eq_nat.mpr (forall_mem_map.mpr fun txin hmem => ?_)
    rw [accessCoin_eq (h txin hmem), hnot]
    rfl
  have hwitness : ((spendAll n).vin.map fun txin => countWitnessSigOps flags txin.scriptSig
      (Validation.accessCoin v txin.prevout).out.scriptPubKey txin.scriptWitness).sum = 0 := by
    refine List.sum_eq_zero_iff_forall_eq_nat.mpr (forall_mem_map.mpr fun txin hmem => ?_)
    rw [accessCoin_eq (h txin hmem), countWitnessSigOps]
    simp [isWitnessProgram_of_length hlong, hnot]
  rw [getTransactionSigOpCost, getLegacySigOpCount_spendAll, hscriptHash, hwitness]
  simp

private theorem blockScriptFlags_eq (n : Nat) : blockScriptFlags TwoBlocks.network
    (blockOf n :: pprev) = getBlockScriptFlags true true true := rfl

/-- All scripts are checked, in the thread of the call. -/
def mode : ScriptMode := ⟨true, false⟩

private theorem connect_coinbase (n : Nat) : ∃ v₁,
    connectTransaction primitives TwoBlocks.network int64Range mode (blockOf n :: pprev) true
      ⟨view, 0, 0, [], none⟩ coinbase = .ok ⟨v₁, 0, 0, [], none⟩ ∧ Funded v₁ (spendAll n).vin := by
  let o : COutPoint := outPoint primitives coinbase 0
  refine ⟨{ view with coins := update view.coins o (some ⟨⟨0, []⟩, true, 1⟩) }, ?_,
    forall_mem_map.mpr fun k _ => ?_⟩
  · have hsigops : getLegacySigOpCount coinbase = 0 := rfl
    rw [connectTransaction, blockScriptFlags_eq, getTransactionSigOpCost, hsigops]
    rfl
  · exact coins_input k

private theorem connectInputs_eq (h : Funded v (spendAll n).vin) :
    connectInputs primitives TwoBlocks.network int64Range (blockOf n :: pprev) (spendAll n)
      ⟨v, 0, 0, [], none⟩ = .ok 0 := by
  have hhave : haveInputs v (spendAll n) := by
    rw [haveInputs, isCoinBase_spendAll, Bool.false_or, all_eq_true]
    intro txin hmem
    rw [Validation.haveCoin, h txin hmem]
    rfl
  have hinputs : checkTxInputs int64Range (spendAll n) v
      (nHeight (blockOf n :: pprev)) = .ok 0 := by
    rw [checkTxInputs, hhave, checkInputValues_eq h]
    rfl
  have hlocks : ∀ prevheights, sequenceLocks (spendAll n)
      (deploymentActiveAt (blockOf n :: pprev) TwoBlocks.network.csvHeight) prevheights
      (blockOf n :: pprev) := by
    intro prevheights
    have hone : nHeight (blockOf n :: pprev) = 1 := rfl
    exact sequenceLocks_of_pair rfl (by rw [hone]; decide)
  rw [connectInputs, isCoinBase_spendAll, hinputs]
  simp only [hlocks]
  rfl

private theorem connect_spendAll (hn : n ≤ 700000) (h : Funded v (spendAll n).vin) :
    ∃ v₂, connectTransaction primitives TwoBlocks.network int64Range mode (blockOf n :: pprev) false
      ⟨v, 0, 0, [], none⟩ (spendAll n) = .ok ⟨v₂, 0, 0, (undoOf n).vtxundo, none⟩ := by
  have hlength : (spendAll n).vin.length = n := by rw [spendAll, length_map, length_range]
  obtain ⟨v₂, hspend⟩ := spendInputs_eq (ρ := BlockValidationResult) h (nodup_prevouts (by omega))
  have hfailing : failingInput primitives (getBlockScriptFlags true true true)
      (spendAll n) v = none :=
    failingInput_eq (by decide) (by decide) (by decide) h
  have hupdate : updateCoins primitives (spendAll n) v (nHeight (blockOf n :: pprev)).toNat =
      (.ok (⟨replicate n coin⟩, v₂) : Except (Failure BlockValidationResult) _) := by
    rw [hlength] at hspend
    rw [updateCoins, spendInputsOf, isCoinBase_spendAll, hspend]
    -- the only output cannot be spent, and so adds no coin
    rfl
  refine ⟨v₂, ?_⟩
  rw [connectTransaction, blockScriptFlags_eq, connectInputs_eq h]
  simp only [getTransactionSigOpCost_eq _ h, hfailing, hupdate]
  rfl

private theorem overwritesOutput_eq (h : 2 ≤ n) : overwritesOutput primitives
    (blockOf n) view = false := by
  have hspend : ((range (spendAll n).vout.length).any fun o =>
      haveCoin view (outPoint primitives (spendAll n) o)) = false := by
    have hne : numbered (serializeUInt32 1) ≠ .fill 32 1 := by decide
    rw [any_eq_false]
    intro o _
    simp only [outPoint, getHash_spendAll h, Validation.haveCoin, view, hne]
    decide
  rw [overwritesOutput, blockOf, any_cons, any_cons, hspend]
  rfl

/-- The block is connected, and its undo record has all the coins. -/
theorem connectBlock_blockOf (h2 : 2 ≤ n) (h : n ≤ 700000) : ∃ view',
    connectBlock primitives TwoBlocks.network int64Range mode (blockOf n) pprev view =
      .ok (view', some (undoOf n)) := by
  obtain ⟨v₁, hcoinbase, hcoins⟩ := connect_coinbase n
  obtain ⟨v₂, hspend⟩ := connect_spendAll h hcoins
  have htxs : connectTransactions primitives TwoBlocks.network int64Range mode (blockOf n :: pprev)
      (blockOf n).vtx ⟨view, 0, 0, [], none⟩ = .ok ⟨v₂, 0, 0, (undoOf n).vtxundo, none⟩ := by
    change (do
      let s ← connectTransaction primitives TwoBlocks.network int64Range mode (blockOf n :: pprev)
        true _ coinbase
      connectRest primitives TwoBlocks.network int64Range mode (blockOf n :: pprev)
        [spendAll n] s) = _
    rw [hcoinbase]
    change (do
      let s ← connectTransaction primitives TwoBlocks.network int64Range mode
        (blockOf n :: pprev) false ⟨v₁, 0, 0, [], none⟩ (spendAll n)
      connectRest primitives TwoBlocks.network int64Range mode (blockOf n :: pprev) [] s) = _
    rw [hspend]
    rfl
  have hchecked : connectChecked primitives TwoBlocks.network int64Range mode
      (blockOf n) pprev view =
        .ok ({ v₂ with hashBlock := (blockOf n).getHash primitives }, undoOf n) := by
    have hheight : (nHeight (blockOf n :: pprev)).toNat = 1 := rfl
    have hvalue : getValueOut int64Range coinbase =
        (.ok 0 : Except (Failure BlockValidationResult) CAmount) := by
      rfl
    have hfirst : (blockOf n).vtx.headD ⟨[], [], 0, 0⟩ = coinbase := rfl
    rw [connectChecked, overwritesOutput_eq h2, Bool.and_false, htxs, hheight, hfirst, hvalue]
    rfl
  have hgenesis : (blockOf n).getHash primitives ≠ TwoBlocks.network.hashGenesisBlock := by
    have hheader : header.getHash primitives ≠ TwoBlocks.network.hashGenesisBlock := by decide
    exact hheader
  refine ⟨{ v₂ with hashBlock := (blockOf n).getHash primitives }, ?_⟩
  rw [connectBlock, checkBlock_blockOf h2 h, hchecked, if_neg hgenesis]
  rfl

/-! ### The record is too large -/

private theorem length_serialize_coin : 9937 ≤ (serializeTxInUndo coin).length := by
  have hscript : serializeScript coin.out.scriptPubKey =
      writeVarInt (coin.out.scriptPubKey.length + nSpecialScripts) ++ coin.out.scriptPubKey := by
    rw [serializeScript, compressScript_of_length (by rw [length_script]; decide)]
  have hlength := length_script
  rw [serializeTxInUndo, serializeTxOut, hscript]
  simp only [length_append]
  omega

private theorem length_undoOf (n : Nat) : 9937 * n ≤ (undoOf n).serialize.length := by
  have hcoins := Nat.mul_le_mul_left n length_serialize_coin
  simp only [undoOf, CBlockUndo.serialize, flatMap_cons, CTxUndo.serialize, length_append,
    length_flatMap, map_replicate, sum_replicate_nat]
  omega

private theorem valid_block (h2 : 2 ≤ n) (h : n ≤ 700000) :
    Valid primitives TwoBlocks.network (.block (blockOf n) pprev) := by
  have hrange : header.InRange := by decide
  exact ⟨checkBlock_blockOf h2 h, hrange⟩

private theorem valid_undo (h2 : 2 ≤ n) (h : n ≤ 700000) :
    Valid primitives TwoBlocks.network (.undo (blockOf n :: pprev) (undoOf n)) := by
  obtain ⟨view', hconnect⟩ := connectBlock_blockOf h2 h
  exact ⟨blockOf n, pprev, mode, view, view', rfl, hconnect, coinsGood_view, by decide⟩

/-- The block arrives, and is connected. -/
def ops {n : Nat} (h2 : 2 ≤ n) (h : n ≤ 700000) : List (ValidOp primitives TwoBlocks.network) :=
  [⟨.block (blockOf n) pprev, valid_block h2 h⟩,
    ⟨.undo (blockOf n :: pprev) (undoOf n), valid_undo h2 h⟩]

private theorem not_intact (opts : Options) (h2 : 2 ≤ n) (h : n ≤ 700000)
    (hlarge : 2 ^ 32 ≤ 9937 * n) : ¬ Along (stepValid primitives opts TwoBlocks.network)
      (Intact primitives opts TwoBlocks.network) (some .init) (ops h2 h) := by
  rintro ⟨-, hfirst, hsecond⟩
  dsimp only [stepValid, Node.step, Option.bind_some] at hfirst hsecond
  cases harrived : Node.init.blockArrived opts (blockOf n) pprev with
  | none =>
    rw [harrived] at hfirst
    exact hfirst
  | some n' =>
    rw [harrived] at hsecond
    obtain ⟨⟨pos, s'⟩, -, rfl⟩ := Option.map_eq_some_iff.mp harrived
    -- the size of the record alone needs more than 32 bits
    have hfits := fitsStorage_of_intact hsecond _ (update_self ..) rfl
    have hlength := length_undoOf n
    rw [Storage.length_undoRecord] at hfits
    omega

end ManyInputs

/-- A block of a coinbase and a transaction with 440000 inputs passes `CheckBlock` and
`ConnectBlock` with all scripts checked, and storage is not intact once it has arrived and its undo
record is written. -/
theorem storage_not_intact :
    ¬ Lib.Along (stepValid Net.ManyTransactions.primitives ⟨false, .fill 4 0xf9⟩
      Validation.TwoBlocks.network)
      (Intact Net.ManyTransactions.primitives ⟨false, .fill 4 0xf9⟩ Validation.TwoBlocks.network)
        (some .init)
      (ManyInputs.ops (show 2 ≤ 440000 by omega) (by omega)) :=
  ManyInputs.not_intact ⟨false, .fill 4 0xf9⟩ _ _ (by omega)

end Tessera.BlockStorage
