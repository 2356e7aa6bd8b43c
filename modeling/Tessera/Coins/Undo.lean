import Tessera.Basic.Serialize
import Tessera.Coins.Cache

/-!
# Compressed outputs and undo records

`compressor.h` and `compressor.cpp`: the short forms in which amounts and scripts are stored, and
`reads_txOut`, that every output a transaction may have is read back as it was.
-/

namespace Tessera.Coins

open Lib Script Tx

/-! ### Amounts -/

/-- The first loop of `CompressAmount`: divide by ten while it divides, at most `left` times more.
The result is the quotient with the number of divisions. -/
def stripZeros : Nat → Nat → Nat → Nat × Nat
  | 0, n, e => (n, e)
  | left + 1, n, e => if n % 10 = 0 then stripZeros left (n / 10) (e + 1) else (n, e)

/-- `CompressAmount`, in the arithmetic of 64 bits. -/
def compressAmount (n : Nat) : Nat :=
  if n = 0 then 0
  else
    let (n, e) := stripZeros 9 n 0
    if e < 9 then (1 + (n / 10 * 9 + n % 10 - 1) * 10 + e) % 2 ^ 64
    else (1 + (n - 1) * 10 + 9) % 2 ^ 64

/-- `DecompressAmount`, in the arithmetic of 64 bits. -/
def decompressAmount (x : Nat) : Nat :=
  if x = 0 then 0
  else
    let x := x - 1
    let e := x % 10
    let x := x / 10
    let n := if e < 9 then x / 9 * 10 + (x % 9 + 1) else x + 1
    n * 10 ^ e % 2 ^ 64

/-- What is left after the loop is the amount without its trailing zeros, up to nine of them. -/
theorem stripZeros_spec {left n e m f : Nat} (h : stripZeros left n e = (m, f)) :
    e ≤ f ∧ f ≤ e + left ∧ n = m * 10 ^ (f - e) ∧ (f < e + left → m % 10 ≠ 0) := by
  induction left generalizing n e with
  | zero =>
    cases h
    simp
  | succ left ih =>
    rw [stripZeros] at h
    split at h
    next hzero =>
      obtain ⟨hle, hge, hn, hlast⟩ := ih h
      refine ⟨by omega, by omega, ?_, fun hlt => hlast (by omega)⟩
      have hpow : 10 ^ (f - e) = 10 ^ (f - (e + 1)) * 10 := by
        rw [← pow_succ]
        congr 1
        omega
      rw [hpow, ← mul_assoc, ← hn]
      omega
    next hnonzero =>
      cases h
      simp [hnonzero]

private theorem stripZeros_le {left n e m f : Nat} (h : stripZeros left n e = (m, f)) : m ≤ n := by
  rw [(stripZeros_spec h).2.2.1]
  exact Nat.le_mul_of_pos_right m (Nat.pow_pos (by decide))

private theorem decompressAmount_compressAmount {n : Nat} (h : n ≤ 21000000 * 100000000) :
    decompressAmount (compressAmount n) = n ∧ compressAmount n ≤ uint64Max := by
  by_cases hn : n = 0
  · subst hn
    decide
  obtain ⟨m, e, hstrip⟩ : ∃ m e, stripZeros 9 n 0 = (m, e) := ⟨_, _, rfl⟩
  obtain ⟨-, he, hval, hlast⟩ := stripZeros_spec hstrip
  rw [Nat.sub_zero] at hval
  have hm := stripZeros_le hstrip
  have hmpos : 0 < m := by
    rcases Nat.eq_zero_or_pos m with rfl | hm
    · simp at hval
      exact absurd hval hn
    · exact hm
  have hfit : n % 2 ^ 64 = n := Nat.mod_eq_of_lt (by omega)
  rw [compressAmount, if_neg hn, hstrip]
  dsimp only
  split
  next hlt =>
    -- the last digit is stored apart, since it is not zero
    have hdigit := hlast (by omega)
    have hsmall : 1 + (m / 10 * 9 + m % 10 - 1) * 10 + e < 2 ^ 64 := by omega
    rw [Nat.mod_eq_of_lt hsmall]
    refine ⟨?_, by unfold uint64Max; omega⟩
    rw [decompressAmount, if_neg (by omega)]
    have hx : 1 + (m / 10 * 9 + m % 10 - 1) * 10 + e - 1 = (m / 10 * 9 + m % 10 - 1) * 10 + e := by
      omega
    have hexp : ((m / 10 * 9 + m % 10 - 1) * 10 + e) % 10 = e := by omega
    have hquot : ((m / 10 * 9 + m % 10 - 1) * 10 + e) / 10 = m / 10 * 9 + m % 10 - 1 := by omega
    have hback : (m / 10 * 9 + m % 10 - 1) / 9 * 10 + ((m / 10 * 9 + m % 10 - 1) % 9 + 1) = m := by
      omega
    simp only [hx, hexp, hquot, if_pos hlt, hback, ← hval, hfit]
  · have he9 : e = 9 := by omega
    have hsmall : 1 + (m - 1) * 10 + 9 < 2 ^ 64 := by omega
    rw [Nat.mod_eq_of_lt hsmall]
    refine ⟨?_, by unfold uint64Max; omega⟩
    rw [decompressAmount, if_neg (by omega)]
    have hexp : (1 + (m - 1) * 10 + 9 - 1) % 10 = 9 := by omega
    have hback : (1 + (m - 1) * 10 + 9 - 1) / 10 + 1 = m := by omega
    rw [he9] at hval
    simp only [hexp, lt_irrefl, if_false, hback, ← hval, hfit]

/-! ### Scripts -/

variable (script : CScript)

/-- `IsToKeyID`: the key hash of a pay-to-pubkey-hash script. -/
def isToKeyID : Option Bytes :=
  if script.length = 25 ∧ script.take 3 = [0x76, 0xa9, 20] ∧ script.drop 23 = [0x88, 0xac] then
    some ((script.drop 3).take 20)
  else none

/-- `IsToScriptID`: the script hash of a pay-to-script-hash script. -/
def isToScriptID : Option Bytes :=
  if script.length = 23 ∧ script.take 2 = [0xa9, 20] ∧ script.drop 22 = [0x87] then
    some ((script.drop 2).take 20)
  else none

/-- `CompressScript`: the kind of a special script with its data. -/
def compressScript : Option (Nat × Bytes) :=
  match isToKeyID script with
  | some hash => some (0x00, hash)
  | none =>
    match isToScriptID script with
    | some hash => some (0x01, hash)
    | none => none

variable {script} in
theorem compressScript_of_length (h : 25 < script.length) : compressScript script = none := by
  have hkey : isToKeyID script = none := if_neg fun hkey => absurd hkey.1 (by omega)
  have hscript : isToScriptID script = none := if_neg fun hscript => absurd hscript.1 (by omega)
  rw [compressScript, hkey, hscript]

def getSpecialScriptSize (nSize : Nat) : Nat := if nSize = 0 ∨ nSize = 1 then 20 else 0

/-- `DecompressScript`. The kinds that are not in use leave the script empty. -/
def decompressScript (nSize : Nat) (hash : Bytes) : CScript :=
  if nSize = 0x00 then [0x76, 0xa9, 20] ++ hash ++ [0x88, 0xac]
  else if nSize = 0x01 then [0xa9, 20] ++ hash ++ [0x87]
  else []

def nSpecialScripts : Nat := 6

/-- `ScriptCompression::Ser`. -/
def serializeScript (script : CScript) : Bytes :=
  match compressScript script with
  | some (kind, hash) => UInt8.ofNat kind :: hash
  | none => writeVarInt (script.length + nSpecialScripts) ++ script

/-- The rest of `ScriptCompression::Unser` after the size. An overlong script is replaced by one
that cannot be spent. -/
def readScriptOf (nSize : Nat) : ByteReader CScript :=
  if nSize < nSpecialScripts then
    decompressScript nSize <$> readBytes (getSpecialScriptSize nSize)
  else if maxScriptSize < nSize - nSpecialScripts then
    (fun _ => [0x6a]) <$> readBytes (nSize - nSpecialScripts)
  else readBytes (nSize - nSpecialScripts)

/-- `ScriptCompression::Unser`. -/
def readScript : ByteReader CScript := do
  let nSize ← readVarInt uint32Max
  readScriptOf nSize

private theorem decompressScript_compressScript {script hash : Bytes} {kind : Nat}
    (h : compressScript script = some (kind, hash)) :
    kind < 2 ∧ hash.length = 20 ∧ decompressScript kind hash = script := by
  -- a script of a template is its head, its hash and its tail
  have hsplit : ∀ i j : Nat, i ≤ j →
      script.take i ++ (script.drop i).take (j - i) ++ script.drop j = script := by
    intro i j hij
    have hdrop : script.drop j = (script.drop i).drop (j - i) := by
      rw [List.drop_drop]
      congr 1
      omega
    rw [hdrop, List.append_assoc, List.take_append_drop, List.take_append_drop]
  unfold compressScript isToKeyID isToScriptID at h
  split at h
  next heq =>
    split at heq
    next hkey =>
      obtain ⟨hlen, hhead, htail⟩ := hkey
      cases heq
      cases h
      refine ⟨by decide, by simp [hlen], ?_⟩
      have := hsplit 3 23 (by decide)
      rwa [hhead, htail] at this
    · cases heq
  · split at h
    next heq =>
      split at heq
      next hscript =>
        obtain ⟨hlen, hhead, htail⟩ := hscript
        cases heq
        cases h
        refine ⟨by decide, by simp [hlen], ?_⟩
        have := hsplit 2 22 (by decide)
        rwa [hhead, htail] at this
      · cases heq
    · cases h

/-- A script that is not too long to be spent is read as it was written. -/
theorem reads_script {script : CScript} (h : script.length ≤ maxScriptSize) :
    Reads readScript (serializeScript script) script := by
  have hmax : maxScriptSize = 10000 := rfl
  unfold serializeScript
  split
  next kind hash heq =>
    obtain ⟨hkind, hlen, hback⟩ := decompressScript_compressScript heq
    have hsize : Reads (readVarInt uint32Max) [UInt8.ofNat kind] kind := by
      have hwrite : writeVarInt kind = [UInt8.ofNat kind] := by
        obtain rfl | rfl : kind = 0 ∨ kind = 1 := by omega
        all_goals rfl
      rw [← hwrite]
      exact reads_varInt (by unfold uint32Max; omega) (by decide)
    have hrest : Reads (readScriptOf kind) hash script := by
      have hspecial : getSpecialScriptSize kind = hash.length := by
        rw [hlen, getSpecialScriptSize, if_pos (by omega)]
      have hk : kind < nSpecialScripts := lt_trans hkind (by decide)
      rw [readScriptOf, if_pos hk, hspecial, ← hback]
      exact (reads_bytes hash).map
    exact hsize.bind hrest
  · have hrest : Reads (readScriptOf (script.length + nSpecialScripts)) script script := by
      rw [readScriptOf, if_neg (by omega), Nat.add_sub_cancel, if_neg (by omega)]
      exact reads_bytes script
    have hfit : script.length + nSpecialScripts ≤ uint32Max := by
      simp only [nSpecialScripts, uint32Max]
      omega
    exact (reads_varInt hfit (by decide)).bind hrest

/-! ### Outputs -/

/-- `AmountCompression::Ser`, which takes an amount for a number of 64 bits. -/
def serializeAmount (nValue : CAmount) : Bytes :=
  writeVarInt (compressAmount (nValue % 2 ^ 64).toNat)

/-- `AmountCompression::Unser`. -/
def readAmount : ByteReader CAmount := (fun v => (decompressAmount v : Int)) <$>
    readVarInt uint64Max

/-- `TxOutCompression`: the writer. -/
def serializeTxOut (out : CTxOut) : Bytes := serializeAmount out.nValue ++
    serializeScript out.scriptPubKey

/-- `TxOutCompression`: the reader. -/
def readTxOut : ByteReader CTxOut := do
  let nValue ← readAmount
  let scriptPubKey ← readScript
  return ⟨nValue, scriptPubKey⟩

private theorem reads_amount {nValue : Int} (h : moneyRange nValue) :
    Reads readAmount (serializeAmount nValue) nValue := by
  obtain ⟨hnonneg, hle⟩ := moneyRange_iff.mp h
  have hval : nValue % 2 ^ 64 = nValue := Int.emod_eq_of_lt hnonneg (by omega)
  obtain ⟨hback, hfit⟩ := decompressAmount_compressAmount (n := nValue.toNat) (by omega)
  have hread := (reads_varInt hfit (le_refl _)).map (f := fun v => (decompressAmount v : Int))
  rw [hback, Int.toNat_of_nonneg hnonneg] at hread
  rw [serializeAmount, hval]
  exact hread

/-- An output that is in range is read as it was written. -/
theorem reads_txOut {out : CTxOut} (hvalue : moneyRange out.nValue)
    (hscript : out.scriptPubKey.length ≤ maxScriptSize) : Reads readTxOut
      (serializeTxOut out) out := by
  have hrest := (reads_script hscript).bind_pure fun scriptPubKey =>
    (⟨out.nValue, scriptPubKey⟩ : CTxOut)
  exact (reads_amount hvalue).bind hrest

/-! ## Undo records

`undo.h` and `ReadBlockUndo`/`WriteBlockUndo` of `node/blockstorage.cpp`: the coins that a block has
spent, as they are stored next to it. `readBlockUndo_writeBlockUndo` says that the record of a block
is read back as it was written, provided that its coins are ones that a chain can hold. The coins of
the database are stored in the same form, without the version number.
-/

/-- `CTxUndo`: the coins that the inputs of a transaction have spent. -/
structure CTxUndo where
  vprevout : List Coin
  deriving DecidableEq

/-- `CBlockUndo`: the records of all transactions of a block but the coinbase. -/
structure CBlockUndo where
  vtxundo : List CTxUndo
  deriving DecidableEq

/-- `TxInUndoFormatter::Ser`. -/
def serializeTxInUndo (txout : Coin) : Bytes :=
  writeVarInt ((txout.nHeight * 2 + txout.fCoinBase.toNat) % 2 ^ 32) ++
    ((if 0 < txout.nHeight then [0] else []) ++ serializeTxOut txout.out)

/-- The version number that old records have for a coin whose height is known. -/
def readVersionDummy (nHeight : Nat) : ByteReader Unit :=
  if 0 < nHeight then (fun _ => ()) <$> readVarInt uint32Max else pure ()

/-- `TxInUndoFormatter::Unser`. -/
def readTxInUndo : ByteReader Coin := do
  let nCode ← readVarInt uint32Max
  readVersionDummy (nCode / 2)
  let out ← readTxOut
  return ⟨out, nCode % 2 == 1, nCode / 2⟩

/-- `Coin::Serialize`, of a coin that is not spent. -/
def serializeCoin (coin : Coin) : Bytes :=
  writeVarInt ((coin.nHeight * 2 + coin.fCoinBase.toNat) % 2 ^ 32) ++ serializeTxOut coin.out

/-- `Coin::Unserialize`. -/
def readCoin : ByteReader Coin := do
  let code ← readVarInt uint32Max
  let out ← readTxOut
  return ⟨out, code % 2 == 1, code / 2⟩

def CTxUndo.serialize (txundo : CTxUndo) : Bytes :=
  writeCompactSize txundo.vprevout.length ++ txundo.vprevout.flatMap serializeTxInUndo

def readTxUndo : ByteReader CTxUndo := CTxUndo.mk <$> readVector readTxInUndo

def CBlockUndo.serialize (blockundo : CBlockUndo) : Bytes :=
  writeCompactSize blockundo.vtxundo.length ++ blockundo.vtxundo.flatMap CTxUndo.serialize

def readBlockUndoFrom : ByteReader CBlockUndo := CBlockUndo.mk <$> readVector readTxUndo

section Storage

variable (P : Primitives) (hashPrev : Uint256)

/-- The checksum of a record: the hash of the previous block's hash and the record. -/
def undoChecksum (record : Bytes) : Uint256 := hash P (hashPrev.data ++ record)

/-- What `WriteBlockUndo` puts at the position of a block. -/
def writeBlockUndo (blockundo : CBlockUndo) : Bytes :=
  blockundo.serialize ++ (undoChecksum P hashPrev blockundo.serialize).data

/-- `ReadBlockUndo`: the record, unless it cannot be read or its checksum is wrong. The checksum is
that of the bytes that were read. -/
def readBlockUndo (file : Bytes) : Option CBlockUndo :=
  match readBlockUndoFrom.run file with
  | .error _ => none
  | .ok (blockundo, rest) =>
    let record := file.take (file.length - rest.length)
    if rest.take 32 = (undoChecksum P hashPrev record).data then some blockundo else none

end Storage

/-! ### Round trips -/

/-- A coin whose record can be read back. -/
structure Coin.Storable (coin : Coin) : Prop where
  value : moneyRange coin.out.nValue = true
  script : coin.out.scriptPubKey.length ≤ maxScriptSize
  height : coin.nHeight < 2 ^ 31

/-- A record of which every coin can be read back, and that is not too long. -/
structure CBlockUndo.Storable (blockundo : CBlockUndo) : Prop where
  size : blockundo.vtxundo.length ≤ maxSize
  txSize : ∀ txundo ∈ blockundo.vtxundo, txundo.vprevout.length ≤ maxSize
  coins : ∀ txundo ∈ blockundo.vtxundo, ∀ coin ∈ txundo.vprevout, coin.Storable

private theorem reads_versionDummy (nHeight : Nat) :
    Reads (readVersionDummy nHeight) (if 0 < nHeight then [0] else []) () := by
  unfold readVersionDummy
  split
  · exact (reads_varInt (n := 0) (by decide) (by decide)).map
  · exact reads_pure ()

section

variable {coin : Coin} (h : coin.Storable)

include h

/-- The code of a coin is its height and the flag, since the height leaves a bit for it. -/
theorem Coin.Storable.exists_code : ∃ code, (coin.nHeight * 2 + coin.fCoinBase.toNat) %
    2 ^ 32 = code ∧ code ≤ uint32Max ∧ code / 2 = coin.nHeight ∧
    Reads (do let out ← readTxOut; return (⟨out, code % 2 == 1, code / 2⟩ : Coin))
      (serializeTxOut coin.out) coin := by
  have hheight := h.height
  have hflag := coin.fCoinBase.toNat_lt
  have hhalf : (coin.nHeight * 2 + coin.fCoinBase.toNat) / 2 = coin.nHeight := by omega
  have hodd : ((coin.nHeight * 2 + coin.fCoinBase.toNat) % 2 == 1) = coin.fCoinBase := by
    cases coin.fCoinBase <;> simp
  refine ⟨_, Nat.mod_eq_of_lt (by omega), by unfold uint32Max; omega, hhalf, ?_⟩
  rw [hodd, hhalf]
  exact (reads_txOut h.value h.script).bind_pure fun out =>
    (⟨out, coin.fCoinBase, coin.nHeight⟩ : Coin)

private theorem reads_txInUndo : Reads readTxInUndo (serializeTxInUndo coin) coin := by
  obtain ⟨code, hcode, hfit, hhalf, hout⟩ := h.exists_code
  rw [serializeTxInUndo, hcode, ← hhalf]
  exact (reads_varInt hfit (by decide)).bind ((reads_versionDummy (code / 2)).bind hout)

private theorem reads_coin : Reads readCoin (serializeCoin coin) coin := by
  obtain ⟨code, hcode, hfit, -, hout⟩ := h.exists_code
  rw [serializeCoin, hcode]
  exact (reads_varInt hfit (by decide)).bind hout

end

private theorem reads_txUndo {txundo : CTxUndo} (hsize : txundo.vprevout.length ≤ maxSize)
    (h : ∀ coin ∈ txundo.vprevout, coin.Storable) : Reads readTxUndo txundo.serialize txundo :=
  (reads_vector hsize fun coin hcoin => reads_txInUndo (h coin hcoin)).map

variable {blockundo : CBlockUndo} {P : Primitives}

private theorem reads_blockUndo (h : blockundo.Storable) : Reads readBlockUndoFrom
    blockundo.serialize blockundo :=
  (reads_vector h.size fun txundo htxundo => reads_txUndo (h.txSize txundo htxundo)
    (h.coins txundo htxundo)).map

/-- A record is read back as it was written, whatever follows it in the file. -/
theorem readBlockUndo_append (h : blockundo.Storable) (hashPrev : Uint256) (rest : Bytes) :
    readBlockUndo P hashPrev (writeBlockUndo P hashPrev blockundo ++ rest) = some blockundo := by
  generalize hsum : (undoChecksum P hashPrev blockundo.serialize).data = checksum
  have hlen : checksum.length = 32 := hsum ▸ (undoChecksum P hashPrev blockundo.serialize).size_eq
  have hfile : writeBlockUndo P hashPrev blockundo ++ rest = blockundo.serialize ++
      (checksum ++ rest) := by
    rw [writeBlockUndo, hsum, List.append_assoc]
  have hrecord : (blockundo.serialize ++ (checksum ++ rest)).take
      ((blockundo.serialize ++ (checksum ++ rest)).length - (checksum ++ rest).length) =
        blockundo.serialize := by
    rw [List.length_append, Nat.add_sub_cancel, List.take_left]
  rw [hfile, readBlockUndo, reads_blockUndo h (checksum ++ rest)]
  dsimp only
  rw [hrecord, hsum, ← hlen, List.take_left, if_pos rfl]

theorem readBlockUndo_writeBlockUndo (h : blockundo.Storable) (hashPrev : Uint256) :
    readBlockUndo P hashPrev (writeBlockUndo P hashPrev blockundo) = some blockundo := by
  have hread := readBlockUndo_append h hashPrev (P := P) []
  rwa [List.append_nil] at hread

/-! ### All stored forms -/

/-- What is stored in a compressed form can be read back: coins whose height has 31 bits, records
with at most `MAX_SIZE` entries of them, amounts, and the scripts of the special forms. The amounts
do not exceed 64 bits on the way. -/
theorem compression_roundTrip :
    (∀ coin : Coin, coin.Storable → Reads readCoin (serializeCoin coin) coin) ∧
    (∀ txundo : CTxUndo, txundo.vprevout.length ≤ maxSize →
      (∀ coin ∈ txundo.vprevout, coin.Storable) → Reads readTxUndo txundo.serialize txundo) ∧
    (∀ blockundo : CBlockUndo, blockundo.Storable →
      Reads readBlockUndoFrom blockundo.serialize blockundo) ∧
    (∀ n : Nat, moneyRange n = true → decompressAmount (compressAmount n) = n ∧
      let m := (stripZeros 9 n 0).1
      1 + (m / 10 * 9 + m % 10 - 1) * 10 + 9 < 2 ^ 64 ∧ 1 + (m - 1) * 10 + 9 < 2 ^ 64) ∧
    (∀ a b : Nat, moneyRange a = true → moneyRange b = true → compressAmount a =
      compressAmount b → a = b) ∧
    ∀ script kind hash, compressScript script = some (kind, hash) →
    decompressScript kind hash = script := by
  have hamount {n : Nat} (h : moneyRange n) : n ≤ 21000000 * 100000000 := by
    have hle := (moneyRange_iff.mp h).2
    omega
  have hback {n : Nat} (h : moneyRange n) := (decompressAmount_compressAmount (hamount h)).1
  refine ⟨fun coin => reads_coin, fun txundo => reads_txUndo, fun blockundo => reads_blockUndo,
    fun n h => ⟨hback h, ?_⟩, fun a b ha hb heq => ?_, fun script kind hash h => ?_⟩
  · have hle := (stripZeros_le (Prod.eta (stripZeros 9 n 0)).symm).trans (hamount h)
    constructor <;> omega
  · rw [← hback ha, heq, hback hb]
  · exact (decompressScript_compressScript h).2.2

/-- The coin of a pay-to-pubkey-hash output with the largest amount, by itself and in an undo
record. -/
theorem compression_roundTrip_keyHash :
    let coin : Coin := ⟨⟨21000000 * 100000000, [0x76, 0xa9, 20] ++ (Blob.fill 20 7).data ++
      [0x88, 0xac]⟩, true, 100⟩
    Reads readCoin (serializeCoin coin) coin ∧
      Reads readTxUndo (CTxUndo.serialize ⟨[coin]⟩) ⟨[coin]⟩ ∧
      Reads readBlockUndoFrom (CBlockUndo.serialize ⟨[⟨[coin, coin]⟩, ⟨[]⟩]⟩)
        ⟨[⟨[coin, coin]⟩, ⟨[]⟩]⟩ ∧
      decompressAmount (compressAmount (21000000 * 100000000)) = 21000000 * 100000000 := by
  intro coin
  have hcoin : coin.Storable := ⟨rfl, by decide, by decide⟩
  obtain ⟨hcoins, htxs, hblocks, hamounts, -⟩ := compression_roundTrip
  refine ⟨hcoins coin hcoin, htxs ⟨[coin]⟩ (by decide) (by simp [hcoin]),
    hblocks _ ⟨by decide, by simp [maxSize], by simp [hcoin]⟩, (hamounts _ rfl).1⟩

/-- A record with more coins than `MAX_SIZE` is not read, although each of its coins can be. -/
theorem readTxUndo_too_large :
    readTxUndo.run (CTxUndo.serialize ⟨List.replicate (maxSize + 1) ⟨⟨0, []⟩, false, 1⟩⟩) =
      .error "ReadCompactSize(): size too large" := by
  rw [readTxUndo, StateT.run_map, readVector, StateT.run_bind, CTxUndo.serialize,
    List.length_replicate, readCompactSize_of_lt (Nat.lt_succ_self maxSize) (by decide)]
  rfl

end Tessera.Coins
