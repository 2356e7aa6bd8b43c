import Tessera.Node.BlockStorage

/-!
# What writing a record does to the files

A record goes where the records of its file end, as long as it stays within the limits of the files.
Files that are left behind are at most cut off where their records end.
-/

namespace Tessera.BlockStorage

open Function Coins Lib Tx Validation FlatFile List

variable {P : Primitives} {opts : Options} {params : Params}

namespace Storage

variable {s : Storage}

/-! ### What is known of the files -/

variable {nFile : Nat} {nAddSize : UInt32} {record : Bytes} {s' : Storage}

private theorem info_of_length_le (h : s.blockfileInfo.length ≤ nFile) : s.info nFile = .empty := by
  rw [info, getD_eq_getElem?_getD, getElem?_eq_none h]
  rfl

private theorem length_resized {infos : List CBlockFileInfo} (h : infos.length ≤ nFile + 1) :
    (resized infos nFile).length = nFile + 1 := by
  rw [resized, length_append, length_replicate]
  omega

/-- Files that are new are empty, and so nothing else is known of any file. -/
theorem getD_resized (infos : List CBlockFileInfo) (nFile k : Nat) :
    (resized infos nFile).getD k .empty = infos.getD k .empty := by
  rw [resized, getD_eq_getElem?_getD, getD_eq_getElem?_getD]
  by_cases hk : k < infos.length
  · rw [getElem?_append_left hk]
  · rw [getElem?_append_right (not_lt.mp hk), getElem?_replicate,
      getElem?_eq_none (not_lt.mp hk)]
    split <;> rfl

private theorem info_setInfo (h : nFile < s.blockfileInfo.length) (i : CBlockFileInfo) (k : Nat) :
    (s.setInfo nFile i).info k = if k = nFile then i else s.info k := by
  simp only [info, setInfo]
  by_cases hk : nFile = k
  · subst hk
    simp [h]
  · simp [hk, Ne.symm hk]

/-! ### The file for a block -/

/-- Only the list of files and the cursor are different, and nothing is known of files that are new.
-/
structure Grew (s s' : Storage) : Prop where
  info : ∀ k, s'.info k = s.info k
  blk : s'.blk = s.blk
  rev : s'.rev = s.rev
  entries : s'.entries = s.entries
  known : s.blockfileInfo.length ≤ s'.blockfileInfo.length

private theorem grew_resized (s : Storage) (cursor : BlockfileCursor) (nFile : Nat) :
    Grew s { s with cursor := cursor, blockfileInfo := resized s.blockfileInfo nFile } :=
  ⟨getD_resized _ _, rfl, rfl, rfl, by simp [resized]⟩

theorem Grew.trans {s₁ s₂ : Storage} (h : Grew s s₁) (h' : Grew s₁ s₂) : Grew s s₂ :=
  ⟨fun k => (h'.info k).trans (h.info k), h'.blk.trans h.blk, h'.rev.trans h.rev,
    h'.entries.trans h.entries, h.known.trans h'.known⟩

variable (s) in
/-- The file for a block is the last one, or a new one that nothing is known of. It has room. -/
theorem nextFile_spec (fuel : Nat)
    (hlen : s.blockfileInfo.length = s.cursor.fileNum + 1)
    (hadd : nAddSize < maxFileSize opts nAddSize) (finalizeUndo : Bool) : ∃ nFile finalizeUndo' s',
      nextFile opts nAddSize (fuel + 2) s s.cursor.fileNum finalizeUndo =
        some (nFile, finalizeUndo', s') ∧
      (s.info nFile).nSize + nAddSize < maxFileSize opts nAddSize ∧ Grew s s' ∧
      s'.blockfileInfo.length = nFile + 1 ∧ s'.cursor.fileNum = nFile := by
  by_cases hfull : maxFileSize opts nAddSize ≤ (s.info s.cursor.fileNum).nSize + nAddSize
  · -- the next file is not known yet, so that there is room in it
    have hnew : s.info (s.cursor.fileNum + 1) = .empty := info_of_length_le (Nat.le_of_eq hlen)
    have hroom : (s.info (s.cursor.fileNum + 1)).nSize + nAddSize < maxFileSize opts nAddSize := by
      rw [hnew]
      simpa [CBlockFileInfo.empty] using hadd
    have hgrew := grew_resized s ⟨s.cursor.fileNum + 1, 0⟩ (s.cursor.fileNum + 1)
    refine ⟨s.cursor.fileNum + 1, ((s.info s.cursor.fileNum).nHeightLast.toNat : Int) ==
      s.cursor.undoHeight, _, ?_, hroom, hgrew, length_resized (by omega), rfl⟩
    rw [nextFile, if_pos hfull, nextFile, hgrew.info, if_neg (UInt32.not_le.mpr hroom)]
  · refine ⟨s.cursor.fileNum, finalizeUndo, s, ?_, UInt32.not_le.mp hfull, ?_, hlen, rfl⟩
    · rw [nextFile, if_neg hfull]
    · exact ⟨fun _ => rfl, rfl, rfl, rfl, Nat.le_refl _⟩

/-! ### Sizes -/

/-- No block file gets larger than this. -/
def fileBound : Nat := 2 ^ 27

private theorem maxFileSize_le (h : nAddSize.toNat ≤ maxSize + 8) :
    (maxFileSize opts nAddSize).toNat ≤ fileBound := by
  have hnext : (nAddSize + 1).toNat = nAddSize.toNat + 1 := by
    rw [UInt32.toNat_add, Nat.mod_eq_of_lt]
    · rfl
    · simp only [maxSize] at h
      rw [UInt32.toNat_one]
      omega
  unfold maxFileSize
  split
  · split
    · rw [hnext]
      simp only [maxSize, fileBound] at h ⊢
      omega
    · decide
  · decide

private theorem lt_maxFileSize (h : nAddSize.toNat ≤ maxSize + 8) : nAddSize <
    maxFileSize opts nAddSize := by
  rw [UInt32.lt_iff_toNat_lt]
  simp only [maxSize] at h
  unfold maxFileSize
  split
  · split
    · rw [UInt32.toNat_add, UInt32.toNat_one]
      omega
    next hsmall =>
      rw [UInt32.not_le] at hsmall
      exact hsmall
  · have hmax : maxBlockfileSize.toNat = 134217728 := by decide
    omega

private theorem toNat_add_of_le {n a : UInt32} (hn : n.toNat ≤ fileBound)
    (ha : a.toNat ≤ maxSize + 8) : (n + a).toNat = n.toNat + a.toNat := by
  rw [UInt32.toNat_add]
  simp only [fileBound, maxSize] at hn ha
  omega

private theorem toNat_ofNat_add {n : Nat} {added : UInt32} (h : n + added.toNat < 2 ^ 32) :
    (UInt32.ofNat n + added).toNat = n + added.toNat := by
  have hofNat : (UInt32.ofNat n).toNat = n :=
    UInt32.toNat_ofNat_of_lt' (by simp only [UInt32.size]; omega)
  rw [UInt32.toNat_add, hofNat, Nat.mod_eq_of_lt h]

theorem length_blockRecord (opts : Options) (block : CBlock) :
    (blockRecord opts block).length = (block.serialize true).length + 8 := by
  simp only [blockRecord, storageHeader, length_append, serializeUInt32,
    writeLE_length, Blob.size_eq]
  omega

/-! ### What writing a block does -/

/-- A file is as it was, or cut off where its records end. -/
def SameOrCut (size : Nat) (file file' : Bytes) : Prop := file' = file ∨ file' = truncate file size

theorem SameOrCut.placed {size : Nat} {file file' : Bytes} {placed : List (Nat × Bytes)}
    (h : SameOrCut size file file') (hplaced : Placed size file placed) :
    Placed size file' placed := by
  rcases h with rfl | rfl
  · exact hplaced
  · exact hplaced.truncate 0

/-- Storage after a record has been written to a block file. -/
structure WroteBlock (s : Storage) (nFile : Nat) (record : Bytes) (s' : Storage) : Prop where
  length : s'.blockfileInfo.length = s'.cursor.fileNum + 1
  known : s.blockfileInfo.length ≤ s'.blockfileInfo.length
  file : nFile < s'.blockfileInfo.length
  entries : s'.entries = s.entries
  bound : (s.info nFile).nSize.toNat + record.length ≤ fileBound
  size : ∀ k, (s'.info k).nSize.toNat =
    if k = nFile then (s.info k).nSize.toNat + record.length else (s.info k).nSize.toNat
  undoSize : ∀ k, (s'.info k).nUndoSize = (s.info k).nUndoSize
  written : ∃ n, s'.blk nFile = writeAt 0 (extend 0 (s.blk nFile) n)
    (s.info nFile).nSize.toNat record
  others : ∀ k, k ≠ nFile → SameOrCut (s.info k).nSize.toNat (s.blk k) (s'.blk k)
  undos : ∀ k, SameOrCut (s.info k).nUndoSize.toNat (s.rev k) (s'.rev k)

/-- Finalizing a file leaves everything but the ends of the two files. -/
theorem finalizeBlockFile_blk (s : Storage) (nFile : Nat) (finalizeUndo : Bool) (k : Nat) :
    (k ≠ nFile → (s.finalizeBlockFile nFile finalizeUndo).blk k = s.blk k) ∧
      SameOrCut (s.info k).nSize.toNat (s.blk k)
        ((s.finalizeBlockFile nFile finalizeUndo).blk k) := by
  have hblk : (s.finalizeBlockFile nFile finalizeUndo).blk =
      update s.blk nFile (truncate (s.blk nFile) (s.info nFile).nSize.toNat) := by
    cases finalizeUndo <;> rfl
  rw [hblk, update_apply]
  split_ifs with hk
  · exact ⟨fun h => absurd hk h, .inr (hk ▸ rfl)⟩
  · exact ⟨fun _ => rfl, .inl rfl⟩

private theorem finalizeBlockFile_rev (s : Storage) (nFile : Nat) (finalizeUndo : Bool) (k : Nat) :
    SameOrCut (s.info k).nUndoSize.toNat (s.rev k)
      ((s.finalizeBlockFile nFile finalizeUndo).rev k) := by
  cases finalizeUndo with
  | false => exact .inl rfl
  | true =>
    have hrev : (s.finalizeBlockFile nFile true).rev =
        update s.rev nFile (truncate (s.rev nFile) (s.info nFile).nUndoSize.toNat) := rfl
    rw [hrev, update_apply]
    split_ifs with hk
    · exact .inr (hk ▸ rfl)
    · exact .inl rfl

/-- Storage after the range for a record has been taken. -/
structure TookPos (s : Storage) (nFile : Nat) (nAddSize : UInt32) (s' : Storage) : Prop where
  length : s'.blockfileInfo.length = s.blockfileInfo.length
  entries : s'.entries = s.entries
  size : ∀ k, (s'.info k).nSize = if k = nFile then (s.info k).nSize + nAddSize
    else (s.info k).nSize
  undoSize : ∀ k, (s'.info k).nUndoSize = (s.info k).nUndoSize
  extended : ∃ n, s'.blk nFile = extend 0 (s.blk nFile) n
  others : ∀ k, k ≠ nFile → SameOrCut (s.info k).nSize.toNat (s.blk k) (s'.blk k)
  undos : ∀ k, SameOrCut (s.info k).nUndoSize.toNat (s.rev k) (s'.rev k)

/-- Storage once the file before a new one is finalized. -/
def leftFile (s : Storage) (lastBlockfile nFile : Nat) (finalizeUndo : Bool) : Storage :=
  if nFile ≠ lastBlockfile then
    { s.finalizeBlockFile lastBlockfile finalizeUndo with cursor := ⟨nFile, 0⟩ }
  else s

private theorem leftFile_spec (s : Storage) (lastBlockfile nFile : Nat) (finalizeUndo : Bool) :
    let s' := s.leftFile lastBlockfile nFile finalizeUndo
    s'.blockfileInfo = s.blockfileInfo ∧ s'.entries = s.entries ∧ s'.blk nFile = s.blk nFile ∧
      (∀ k, SameOrCut (s.info k).nSize.toNat (s.blk k) (s'.blk k)) ∧
      ∀ k, SameOrCut (s.info k).nUndoSize.toNat (s.rev k) (s'.rev k) := by
  intro s'
  by_cases hfile : nFile ≠ lastBlockfile
  · have hs' : s' = { s.finalizeBlockFile lastBlockfile finalizeUndo with cursor := ⟨nFile, 0⟩ } :=
      if_pos hfile
    rw [hs']
    exact ⟨by cases finalizeUndo <;> rfl, by cases finalizeUndo <;> rfl,
      (finalizeBlockFile_blk s lastBlockfile finalizeUndo nFile).1 hfile,
      fun k => (finalizeBlockFile_blk s lastBlockfile finalizeUndo k).2,
      finalizeBlockFile_rev s lastBlockfile finalizeUndo⟩
  · have hs' : s' = s := if_neg hfile
    rw [hs']
    exact ⟨rfl, rfl, rfl, fun _ => .inl rfl, fun _ => .inl rfl⟩

/-- What is known of a file once a block has been added to it. -/
def grown (info : CBlockFileInfo) (nAddSize nHeight : UInt32) (nTime : UInt64) : CBlockFileInfo :=
  { info.addBlock nHeight nTime with nSize := (info.addBlock nHeight nTime).nSize + nAddSize }

private theorem takeBlockPos_spec (hfile : nFile < s.blockfileInfo.length)
    (nAddSize nHeight : UInt32) (nTime : UInt64) (lastBlockfile : Nat) (finalizeUndo : Bool) : ∃ s',
      s.takeBlockPos nAddSize nHeight nTime lastBlockfile nFile finalizeUndo =
        (⟨nFile, (s.info nFile).nSize⟩, s') ∧
      s'.cursor = (s.leftFile lastBlockfile nFile finalizeUndo).cursor ∧
      TookPos s nFile nAddSize s' := by
  obtain ⟨hinfos, hentries, hblk, hothers, hundos⟩ :=
    leftFile_spec s lastBlockfile nFile finalizeUndo
  dsimp only [takeBlockPos]
  rw [← leftFile]
  generalize s.leftFile lastBlockfile nFile finalizeUndo =
    left at hinfos hentries hblk hothers hundos ⊢
  have hinfo : ∀ k, left.info k = s.info k := fun k => by rw [info, hinfos, info]
  have hset := info_setInfo (s := left) (hinfos ▸ hfile)
    (grown (left.info nFile) nAddSize nHeight nTime)
  refine ⟨_, rfl, rfl, ?_, hentries, fun k => ?_, fun k => ?_,
    ⟨allocatedSize blockfileChunkSize (s.info nFile).nSize.toNat nAddSize.toNat, ?_⟩,
    fun k hk => ?_, hundos⟩
  · -- setting an entry of the list keeps its length
    exact (length_set ..).trans (congrArg length hinfos)
  · refine (congrArg CBlockFileInfo.nSize (hset k)).trans ?_
    split_ifs with hk
    · rw [hk, hinfo]
      rfl
    · rw [hinfo]
  · refine (congrArg CBlockFileInfo.nUndoSize (hset k)).trans ?_
    split_ifs with hk
    · rw [hk, hinfo]
      rfl
    · rw [hinfo]
  · refine (update_self ..).trans ?_
    exact congrArg (fun file => allocate blockfileChunkSize file _ _) hblk
  · have hsame := hothers k
    rwa [← update_of_ne hk (allocate blockfileChunkSize (left.blk nFile)
      (s.info nFile).nSize.toNat nAddSize.toNat) left.blk] at hsame

variable (opts) in
/-- The record of a block goes where the records of its file end. -/
theorem writeBlock_spec (block : CBlock) (nHeight : UInt32)
    (hlen : s.blockfileInfo.length ≤ s.cursor.fileNum + 1)
    (hbound : ∀ k, (s.info k).nSize.toNat ≤ fileBound)
    (hsize : (block.serialize true).length ≤ maxSize) : ∃ nFile s',
      s.writeBlock opts block nHeight =
        some (⟨nFile, (s.info nFile).nSize + storageHeaderBytes⟩, s') ∧
      WroteBlock s nFile (blockRecord opts block) s' := by
  have hadd : (UInt32.ofNat (block.serialize true).length + storageHeaderBytes).toNat =
      (blockRecord opts block).length := by
    rw [length_blockRecord]
    exact toNat_ofNat_add (Nat.lt_of_le_of_lt (Nat.add_le_add_right hsize _) (by decide))
  have hle : (blockRecord opts block).length ≤ maxSize + 8 := by
    rw [length_blockRecord]
    omega
  generalize hn : UInt32.ofNat (block.serialize true).length + storageHeaderBytes = nAddSize at hadd
  have hle' : nAddSize.toNat ≤ maxSize + 8 := hadd ▸ hle
  -- the files that are there, with the last one among them
  have hgrew₁ := grew_resized s s.cursor s.cursor.fileNum
  generalize hs₁ : ({ s with blockfileInfo := resized s.blockfileInfo s.cursor.fileNum } :
    Storage) = s₁ at hgrew₁
  have hlen₁ : s₁.blockfileInfo.length = s₁.cursor.fileNum + 1 := by
    rw [← hs₁]
    exact length_resized hlen
  have hcursor₁ : s₁.cursor = s.cursor := by rw [← hs₁]
  obtain ⟨fuel, hfuel⟩ : ∃ fuel, s₁.blockfileInfo.length + 1 = fuel + 2 :=
    ⟨s₁.cursor.fileNum, by omega⟩
  obtain ⟨nFile, finalizeUndo, s₂, hnext, hroom, hgrew₂, hlen₂, hcursor₂⟩ :=
    nextFile_spec s₁ fuel hlen₁ (lt_maxFileSize hle' : nAddSize < maxFileSize opts nAddSize) false
  have hgrew := hgrew₁.trans hgrew₂
  obtain ⟨s₃, htake, hcursor₃, htook⟩ := takeBlockPos_spec (s := s₂)
    (by rw [hlen₂]; exact Nat.lt_succ_self nFile)
    nAddSize nHeight block.header.nTime.toUInt64 s.cursor.fileNum finalizeUndo
  rw [hgrew.info] at htake
  have hfind : s.findNextBlockPos opts nAddSize nHeight block.header.nTime.toUInt64 =
      some (⟨nFile, (s.info nFile).nSize⟩, s₃) := by
    have hcount : (resized s.blockfileInfo s.cursor.fileNum).length + 1 = fuel + 2 := by
      rw [← hfuel, ← hs₁]
    rw [hcursor₁] at hnext
    simp only [findNextBlockPos, hs₁, if_pos (lt_maxFileSize hle'), hcount, hnext,
      Option.map_some, htake]
  have hfile₃ : s₃.cursor.fileNum = nFile := by
    rw [hcursor₃, leftFile]
    split
    · rfl
    · exact hcursor₂
  have hsum : ((s.info nFile).nSize + nAddSize).toNat =
      (s.info nFile).nSize.toNat + (blockRecord opts block).length := by
    rw [toNat_add_of_le (hbound nFile) hle', hadd]
  refine ⟨nFile, _, by rw [writeBlock, hn, hfind], ?_⟩
  refine ⟨?_, ?_, ?_, htook.entries.trans hgrew.entries, ?_, fun k => ?_, fun k => ?_, ?_,
    fun k hk => ?_, fun k => ?_⟩
  · exact (htook.length.trans hlen₂).trans (congrArg (· + 1) hfile₃.symm)
  · exact hgrew.known.trans (Nat.le_of_eq htook.length.symm)
  · exact Nat.lt_of_lt_of_eq (Nat.lt_succ_self nFile) (htook.length.trans hlen₂).symm
  · -- the loop has stopped at a file with room
    rw [← hsum]
    have hlt := UInt32.lt_iff_toNat_lt.mp hroom
    rw [hgrew₁.info] at hlt
    exact (Nat.le_of_lt hlt).trans (maxFileSize_le hle')
  · have hsize₃ := congrArg UInt32.toNat (htook.size k)
    rw [hgrew.info] at hsize₃
    refine hsize₃.trans ?_
    split_ifs with hk
    · rw [hk, hsum]
    · rfl
  · exact (htook.undoSize k).trans (congrArg _ (hgrew.info k))
  · obtain ⟨n, hn'⟩ := htook.extended
    refine ⟨n, (update_self ..).trans ?_⟩
    rw [hn', hgrew.blk]
    rfl
  · have hsame := htook.others k hk
    rw [hgrew.info, hgrew.blk] at hsame
    have hblk : ∀ file, update s₃.blk nFile file k = s₃.blk k := fun file =>
      update_of_ne hk file s₃.blk
    exact (congrArg (SameOrCut _ _) (hblk _)).mpr hsame
  · have hsame := htook.undos k
    rwa [hgrew.info, hgrew.rev] at hsame

/-! ### What writing an undo record does -/

variable (P opts) in
theorem length_undoRecord (pindex : CBlockIndex) (undo : CBlockUndo) :
    (undoRecord P opts pindex undo).length = undo.serialize.length + 40 := by
  simp only [undoRecord, storageHeader, writeBlockUndo, length_append, serializeUInt32,
    writeLE_length, Blob.size_eq]
  omega

/-- Storage after a record has been written to an undo file. -/
structure WroteUndo (s : Storage) (nFile : Nat) (record : Bytes) (s' : Storage) : Prop where
  length : s'.blockfileInfo.length = s.blockfileInfo.length
  cursor : s'.cursor.fileNum = s.cursor.fileNum
  size : ∀ k, (s'.info k).nSize = (s.info k).nSize
  undoSize : ∀ k, (s'.info k).nUndoSize.toNat =
    if k = nFile then (s.info k).nUndoSize.toNat + record.length else (s.info k).nUndoSize.toNat
  blk : s'.blk = s.blk
  written : ∃ n, SameOrCut ((s.info nFile).nUndoSize.toNat + record.length)
    (writeAt 0 (extend 0 (s.rev nFile) n) (s.info nFile).nUndoSize.toNat record)
    (s'.rev nFile)
  others : ∀ k, k ≠ nFile → s'.rev k = s.rev k

/-- Storage once a record is written, before the file is cut off or the cursor moves on. -/
def undoWritten (s : Storage) (nFile : Nat) (nAddSize : UInt32) (record : Bytes) : Storage :=
  let s' := (s.findUndoPos nFile nAddSize).2
  let file := writeAt 0 (s'.rev nFile) (s.info nFile).nUndoSize.toNat record
  { s' with rev := update s'.rev nFile file }

private theorem undoWritten_rev (s : Storage) (nFile : Nat) (nAddSize : UInt32) (record : Bytes) :
    ∃ n, (s.undoWritten nFile nAddSize record).rev nFile =
      writeAt 0 (extend 0 (s.rev nFile) n) (s.info nFile).nUndoSize.toNat record := by
  refine ⟨allocatedSize undofileChunkSize (s.info nFile).nUndoSize.toNat nAddSize.toNat, ?_⟩
  simp [undoWritten, findUndoPos, setInfo, allocate]

private theorem undoWritten_spec (hfile : nFile < s.blockfileInfo.length)
    (hadd : nAddSize.toNat = record.length)
    (hfits : (s.info nFile).nUndoSize.toNat + record.length < 2 ^ 32) :
    WroteUndo s nFile record (s.undoWritten nFile nAddSize record) := by
  have hset := info_setInfo hfile
    { s.info nFile with nUndoSize := (s.info nFile).nUndoSize + nAddSize }
  have hsum : ((s.info nFile).nUndoSize + nAddSize).toNat = (s.info nFile).nUndoSize.toNat +
      record.length := by
    rw [UInt32.toNat_add, hadd, Nat.mod_eq_of_lt hfits]
  obtain ⟨n, hrev⟩ := undoWritten_rev s nFile nAddSize record
  refine ⟨length_set .., rfl, fun k => ?_, fun k => ?_, rfl, ⟨n, .inl hrev⟩, fun k hk => ?_⟩
  · refine (congrArg CBlockFileInfo.nSize (hset k)).trans ?_
    split_ifs with hk
    · rw [hk]
    · rfl
  · refine (congrArg (fun i => (CBlockFileInfo.nUndoSize i).toNat) (hset k)).trans ?_
    split_ifs with hk
    · rw [hk]
      exact hsum
    · rfl
  · simp [undoWritten, findUndoPos, setInfo, update_of_ne hk]

private theorem WroteUndo.finalized {n : Nat} (h : WroteUndo s nFile record s')
    (hrev : s'.rev nFile =
      writeAt 0 (extend 0 (s.rev nFile) n) (s.info nFile).nUndoSize.toNat record) :
    WroteUndo s nFile record (s'.finalizeUndoFile nFile) := by
  have hsize := h.undoSize nFile
  rw [if_pos rfl] at hsize
  have hcut : (s'.finalizeUndoFile nFile).rev =
      update s'.rev nFile (truncate (s'.rev nFile) (s'.info nFile).nUndoSize.toNat) := rfl
  refine ⟨h.length, h.cursor, h.size, h.undoSize, h.blk, ⟨n, .inr ?_⟩, fun k hk => ?_⟩
  · rw [hcut, update_self, hrev, hsize]
  · rw [hcut, update_of_ne hk]
    exact h.others k hk

/-- The undo record of a block goes where the records of its file end, if 32 bits are enough for
that. -/
theorem writeUndo_spec {undo : CBlockUndo} {pindex : CBlockIndex} {entry : StoredEntry}
    (hfile : entry.nFile < s.blockfileInfo.length) (hnone : entry.undoPos = none)
    (hfits : (s.info entry.nFile).nUndoSize.toNat +
      (undoRecord P opts pindex undo).length < 2 ^ 32) :
    WroteUndo s entry.nFile (undoRecord P opts pindex undo) (s.writeUndo opts P undo pindex entry) ∧
      (s.writeUndo opts P undo pindex entry).entries = update s.entries pindex
        (some { entry with undoPos := some ((s.info entry.nFile).nUndoSize +
          storageHeaderBytes) }) := by
  have hadd : (UInt32.ofNat undo.serialize.length + undoDataDiskOverhead).toNat =
      (undoRecord P opts pindex undo).length := by
    rw [length_undoRecord] at hfits ⊢
    exact toNat_ofNat_add (show _ + 40 < 2 ^ 32 by omega)
  have hspec := undoWritten_spec hfile hadd hfits
  obtain ⟨n, hrev⟩ := undoWritten_rev s entry.nFile
    (UInt32.ofNat undo.serialize.length + undoDataDiskOverhead) (undoRecord P opts pindex undo)
  generalize hw : s.undoWritten entry.nFile
    (UInt32.ofNat undo.serialize.length + undoDataDiskOverhead)
    (undoRecord P opts pindex undo) = w at hspec hrev
  have hentries : w.entries = s.entries := by rw [← hw]; rfl
  obtain ⟨w', hw', hwrite⟩ : ∃ w', (WroteUndo s entry.nFile (undoRecord P opts pindex undo) w' ∧
      w'.entries = w.entries) ∧ s.writeUndo opts P undo pindex entry = { w' with
        entries := update w'.entries pindex
          (some { entry with undoPos := some ((s.info entry.nFile).nUndoSize +
            storageHeaderBytes) }) } := by
    refine ⟨if entry.nFile < w.cursor.fileNum ∧ pindex.nHeight =
      (w.info entry.nFile).nHeightLast.toNat then w.finalizeUndoFile entry.nFile
        else if entry.nFile = w.cursor.fileNum ∧ w.cursor.undoHeight < pindex.nHeight then
          { w with cursor := { w.cursor with undoHeight := pindex.nHeight } }
        else w, ?_, ?_⟩
    · split
      · exact ⟨hspec.finalized hrev, rfl⟩
      split
      · exact ⟨{ hspec with }, rfl⟩
      · exact ⟨hspec, rfl⟩
    · rw [← hw, writeUndo, hnone]
      rfl
  rw [hwrite]
  -- the entries have no part in what is in the files
  exact ⟨{ hw'.1 with }, congrArg (update · pindex _) (hw'.2.trans hentries)⟩

end Storage

end Tessera.BlockStorage
