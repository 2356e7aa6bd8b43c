import Tessera.Basic.Serialize
import Tessera.Tx.Transaction

/-!
# Reading transactions

The reading side of `primitives/transaction.h`. What `TX_NO_WITNESS` writes of a transaction is read
back as the transaction without its witnesses (`CTransaction.strip`), and what `TX_WITH_WITNESS`
writes as the transaction itself, if it has an input: an empty list of inputs is what tells the
reader that witnesses follow. Hence two transactions with the same serialization differ in their
witnesses only, or not at all.
-/

namespace Tessera.Tx

open Lib List CTxIn

variable {tx : CTransaction} {vin : List CTxIn}

/-! ### Readers -/

def readBlob (n : Nat) : ByteReader (Blob n) := do
  let bs ← readBytes n
  match Blob.ofBytes? n bs with
  | some b => return b
  | none => throw "end of data"

/-- Read an unsigned 32-bit integer. -/
def readUInt32 : ByteReader UInt32 := UInt32.ofNat <$> readInt 4

/-- The signed integer that 64 bits stand for. -/
def signed64 (n : Nat) : Int := if n < 2 ^ 63 then n else n - 2 ^ 64

/-- Read a signed 64-bit integer. -/
def readInt64 : ByteReader Int := signed64 <$> readInt 8

def readByteVector : ByteReader Bytes := do
  let size ← readCompactSize
  readBytes size

def COutPoint.unserialize : ByteReader COutPoint := do
  let hash ← readBlob 32
  let n ← readUInt32
  return ⟨hash, n⟩

def CTxIn.unserialize : ByteReader CTxIn := do
  let prevout ← COutPoint.unserialize
  let scriptSig ← readByteVector
  let nSequence ← readUInt32
  return ⟨prevout, scriptSig, nSequence, []⟩

def CTxOut.unserialize : ByteReader CTxOut := do
  let nValue ← readInt64
  let scriptPubKey ← readByteVector
  return ⟨nValue, scriptPubKey⟩

/-- The inputs and outputs that `UnserializeTransaction` reads, with the byte of flags: an empty
list of inputs may be the mark of an extended serialization. -/
def readInOut (allowWitness : Bool) : ByteReader (List CTxIn × List CTxOut × UInt8) := do
  let vin ← readVector CTxIn.unserialize
  if vin.isEmpty && allowWitness then readExtended
  else readOutputs vin 0
where
  /-- The outputs after the inputs. -/
  readOutputs (vin : List CTxIn) (flags : UInt8) : ByteReader (List CTxIn × List CTxOut × UInt8) :=
    do
    let vout ← readVector CTxOut.unserialize
    return (vin, vout, flags)
  /-- What follows the mark. -/
  readExtended : ByteReader (List CTxIn × List CTxOut × UInt8) := do
    let flags ← readByte
    if flags = 0 then return ([], [], 0)
    else readFlagged flags
  /-- What follows flags that are not null. -/
  readFlagged (flags : UInt8) : ByteReader (List CTxIn × List CTxOut × UInt8) := do
    let vin ← readVector CTxIn.unserialize
    readOutputs vin flags

/-- The loop of `UnserializeTransaction` over the witnesses. -/
def readWitnesses : List CTxIn → ByteReader (List CTxIn)
  | [] => return []
  | txin :: rest => do
    let stack ← readVector readByteVector
    let rest ← readWitnesses rest
    return { txin with scriptWitness := stack } :: rest

/-- The witnesses of a transaction that announces them. -/
def readWitnessRecord (vin : List CTxIn) : ByteReader (List CTxIn) := do
  let vin ← readWitnesses vin
  Reader.check (vin.any fun txin => !txin.scriptWitness.isEmpty) "Superfluous witness record"
  return vin

/-- What `UnserializeTransaction` reads after the outputs. -/
def readTail (allowWitness : Bool) (version : UInt32) (vin : List CTxIn) (vout : List CTxOut)
    (flags : UInt8) : ByteReader CTransaction :=
  -- the flag of the witnesses is cleared when they are read, and no other flag is known
  if flags.toNat.testBit 0 && allowWitness then do
    let vin ← readWitnessRecord vin
    readLockTime vin (flags ^^^ 1)
  else readLockTime vin flags
where
  /-- The end of a transaction. -/
  readLockTime (vin : List CTxIn) (flags : UInt8) : ByteReader CTransaction := do
    Reader.check (flags == 0) "Unknown transaction optional data"
    let nLockTime ← readUInt32
    return ⟨vin, vout, version, nLockTime⟩

def CTransaction.unserialize (allowWitness : Bool) : ByteReader CTransaction := do
  let version ← readUInt32
  let (vin, vout, flags) ← readInOut allowWitness
  readTail allowWitness version vin vout flags

/-! ### Transactions without witnesses -/

/-- An input without its witness. -/
def CTxIn.strip (txin : CTxIn) : CTxIn := { txin with scriptWitness := [] }

/-- A transaction without its witnesses. -/
def CTransaction.strip (tx : CTransaction) : CTransaction :=
  { tx with vin := tx.vin.map CTxIn.strip }

/-- What can be read back: sizes are in range, and values are of 64 bits. -/
structure CTransaction.Readable (tx : CTransaction) : Prop where
  vin : tx.vin.length ≤ maxSize
  vout : tx.vout.length ≤ maxSize
  scriptSig : ∀ txin ∈ tx.vin, txin.scriptSig.length ≤ maxSize
  scriptPubKey : ∀ txout ∈ tx.vout, txout.scriptPubKey.length ≤ maxSize
  nValue : ∀ txout ∈ tx.vout, -2 ^ 63 ≤ txout.nValue ∧ txout.nValue < 2 ^ 63

/-- The witnesses can be read back as well. -/
structure CTransaction.WitnessReadable (tx : CTransaction) : Prop extends tx.Readable where
  stack : ∀ txin ∈ tx.vin, txin.scriptWitness.length ≤ maxSize
  item : ∀ txin ∈ tx.vin, ∀ bs ∈ txin.scriptWitness, bs.length ≤ maxSize

/-! ### Round trips -/

theorem reads_blob {n : Nat} (b : Blob n) : Reads (readBlob n) b.data b := by
  have hbytes : Reads (readBytes n) b.data b.data := by
    have := reads_bytes b.data
    rwa [b.size_eq] at this
  intro rest
  change (readBytes n >>= fun bs => _).run _ = _
  rw [StateT.run_bind, hbytes]
  change (match Blob.ofBytes? n b.data with | some b => _ | none => _ : ByteReader (Blob n)).run
    rest = _
  rw [Blob.ofBytes?_data]
  rfl

theorem reads_uint32 (n : UInt32) : Reads readUInt32 (serializeUInt32 n) n := by
  have := (reads_int (n := 4) (x := n.toNat) n.toNat_lt).map (f := UInt32.ofNat)
  rwa [UInt32.ofNat_toNat] at this

theorem reads_int64 {n : Int} (h : -2 ^ 63 ≤ n ∧ n < 2 ^ 63) : Reads readInt64
    (serializeInt64 n) n := by
  have hlt : (n % 2 ^ 64).toNat < 256 ^ 8 := by omega
  have hsigned : signed64 (n % 2 ^ 64).toNat = n := by
    unfold signed64
    split <;> omega
  have := (reads_int hlt).map (f := signed64)
  rwa [hsigned] at this

variable {bs : Bytes} {α : Type}

private theorem reads_byteVector (h : bs.length ≤ maxSize) : Reads readByteVector
    (serializeBytes bs) bs :=
  (reads_compactSize h).bind (reads_bytes bs)

theorem reads_outPoint (o : COutPoint) : Reads COutPoint.unserialize o.serialize o :=
  (reads_blob o.hash).bind ((reads_uint32 o.n).bind_pure _)

private theorem reads_txIn {txin : CTxIn} (h : txin.scriptSig.length ≤ maxSize) :
    Reads CTxIn.unserialize txin.serialize txin.strip := by
  rw [serialize, append_assoc]
  refine (reads_outPoint txin.prevout).bind ?_
  exact (reads_byteVector h).bind ((reads_uint32 txin.nSequence).bind_pure _)

theorem reads_txOut {txout : CTxOut} (hvalue : -2 ^ 63 ≤ txout.nValue ∧ txout.nValue < 2 ^ 63)
    (hscript : txout.scriptPubKey.length ≤ maxSize) : Reads CTxOut.unserialize
      txout.serialize txout :=
  (reads_int64 hvalue).bind ((reads_byteVector hscript).bind_pure _)

private theorem reads_vin (hsize : vin.length ≤ maxSize)
    (h : ∀ txin ∈ vin, txin.scriptSig.length ≤ maxSize) :
    Reads (readVector CTxIn.unserialize) (serializeVector CTxIn.serialize vin)
      (vin.map CTxIn.strip) := by
  have hmap : serializeVector serialize vin = writeCompactSize (vin.map strip).length ++
      (vin.map strip).flatMap serialize := by
    rw [length_map, flatMap_map]
    rfl
  rw [hmap]
  refine reads_vector (by simpa using hsize) fun x hx => ?_
  obtain ⟨txin, hmem, rfl⟩ := mem_map.mp hx
  exact reads_txIn (h txin hmem)

section Transaction

private theorem reads_outputs (h : tx.Readable) (vin : List CTxIn) (flags : UInt8) :
    Reads (readInOut.readOutputs vin flags) (serializeVector CTxOut.serialize tx.vout)
      (vin, tx.vout, flags) :=
  (reads_vector h.vout fun txout hmem => reads_txOut (h.nValue txout hmem)
    (h.scriptPubKey txout hmem)).bind_pure _

/-- Inputs and outputs without a mark, which an empty list of inputs would be. -/
theorem reads_inOut (h : tx.Readable) {allowWitness : Bool} (hplain : allowWitness → tx.vin ≠ []) :
    Reads (readInOut allowWitness)
      (serializeVector CTxIn.serialize tx.vin ++ serializeVector CTxOut.serialize tx.vout)
      (tx.vin.map CTxIn.strip, tx.vout, 0) := by
  have hmark : ((tx.vin.map strip).isEmpty && allowWitness) = false := by
    cases allowWitness with
    | false => exact Bool.and_false _
    | true => simp [hplain rfl]
  refine (reads_vin h.vin h.scriptSig).bind ?_
  rw [hmark]
  exact reads_outputs h _ 0

private theorem reads_witnesses (hstack : ∀ txin ∈ vin, txin.scriptWitness.length ≤ maxSize)
    (hitem : ∀ txin ∈ vin, ∀ bs ∈ txin.scriptWitness, bs.length ≤ maxSize) :
    Reads (readWitnesses (vin.map CTxIn.strip))
      (vin.flatMap fun txin => serializeVector serializeBytes txin.scriptWitness) vin := by
  induction vin with
  | nil => exact reads_pure []
  | cons txin rest ih =>
    have hrest := ih (fun txin hmem => hstack txin (mem_cons_of_mem _ hmem))
      fun txin hmem => hitem txin (mem_cons_of_mem _ hmem)
    have hfirst :=
      reads_vector (hstack txin mem_cons_self) fun bs hbs =>
        reads_byteVector (hitem txin mem_cons_self bs hbs)
    exact hfirst.bind (hrest.bind_pure (cons txin))

private theorem reads_lockTime (vin : List CTxIn) (tx : CTransaction) :
    Reads (readTail.readLockTime tx.version tx.vout vin 0) (serializeUInt32 tx.nLockTime)
      { tx with vin := vin } := by
  exact (reads_check rfl _).bind ((reads_uint32 tx.nLockTime).bind_pure _)

/-- The serialization without witnesses is read back as the transaction without witnesses. -/
theorem reads_transaction_plain {allow : Bool} (h : tx.Readable) (hvin : allow → tx.vin ≠ [])
    (hplain : (allow && tx.hasWitness) = false) :
    Reads (CTransaction.unserialize allow) (tx.serialize allow) tx.strip := by
  have htail : Reads (readTail allow tx.version (tx.vin.map strip) tx.vout 0)
      (serializeUInt32 tx.nLockTime) tx.strip := by
    cases allow <;> exact reads_lockTime _ tx
  have hbytes : tx.serialize allow = serializeUInt32 tx.version ++
      ((serializeVector serialize tx.vin ++ serializeVector CTxOut.serialize tx.vout) ++
        serializeUInt32 tx.nLockTime) := by
    simp [CTransaction.serialize, hplain]
  rw [hbytes]
  refine (reads_uint32 tx.version).bind ?_
  exact (reads_inOut h hvin).bind htail

theorem reads_transaction (h : tx.Readable) :
    Reads (CTransaction.unserialize false) (tx.serialize false) tx.strip :=
  reads_transaction_plain h nofun rfl

private theorem map_strip_of_not_hasWitness (h : tx.hasWitness = false) :
    tx.vin.map CTxIn.strip = tx.vin := by
  rw [map_congr_left (g := id) fun txin hmem => ?_, map_id]
  have hempty : txin.scriptWitness = [] := by
    simpa using any_eq_false.mp h txin hmem
  rw [strip, ← hempty, id]

/-- The serialization with witnesses is read back as the transaction. -/
theorem reads_transaction_witness (h : tx.WitnessReadable) (hvin : tx.vin ≠ []) :
    Reads (CTransaction.unserialize true) (tx.serialize true) tx := by
  cases hwitness : tx.hasWitness with
  | false =>
    have hread : Reads (CTransaction.unserialize true) _ _ :=
      reads_transaction_plain h.toReadable (fun _ => hvin) hwitness
    rwa [CTransaction.strip, map_strip_of_not_hasWitness hwitness] at hread
  | true =>
    have hrecord : Reads (readWitnessRecord (tx.vin.map strip))
        (tx.vin.flatMap fun txin => serializeVector serializeBytes txin.scriptWitness) tx.vin := by
      have hread : Reads (readWitnessRecord (tx.vin.map strip)) _ tx.vin :=
        (reads_witnesses h.stack h.item).bind ((reads_check hwitness _).bind (reads_pure tx.vin))
      rwa [append_nil, append_nil] at hread
    have htail : Reads (readTail true tx.version (tx.vin.map strip) tx.vout 1)
        ((tx.vin.flatMap fun txin => serializeVector serializeBytes txin.scriptWitness) ++
          serializeUInt32 tx.nLockTime) tx :=
      hrecord.bind (reads_lockTime tx.vin tx)
    have hbytes : tx.serialize true = serializeUInt32 tx.version ++
        ((serializeVector serialize [] ++ ([1] ++
          (serializeVector serialize tx.vin ++ serializeVector CTxOut.serialize tx.vout))) ++
          ((tx.vin.flatMap fun txin => serializeVector serializeBytes txin.scriptWitness) ++
            serializeUInt32 tx.nLockTime)) := by
      simp [CTransaction.serialize, hwitness]
    rw [hbytes]
    refine (reads_uint32 tx.version).bind ?_
    have hmark : Reads (readVector unserialize) (serializeVector serialize []) [] :=
      reads_vin (Nat.zero_le _) (by simp)
    have hflagged : Reads (readInOut.readFlagged 1) _ _ :=
      (reads_vin h.vin h.scriptSig).bind (reads_outputs h.toReadable _ 1)
    have hextended : Reads readInOut.readExtended _ _ := (reads_byte 1).bind hflagged
    have hinOut : Reads (readInOut true) _ _ := hmark.bind hextended
    exact hinOut.bind htail

end Transaction

/-- A string is read as one value. -/
theorem eq_of_reads {r : ByteReader α} {x y : α} (hx : Reads r bs x)
    (hy : Reads r bs y) : x = y := by
  have hread := hx []
  rw [hy []] at hread
  exact (Prod.mk.inj (Except.ok.inj hread)).1.symm

variable {tx' : CTransaction}

/-! ### Sizes without a limit

The writer has no `MAX_SIZE`: what it writes determines a transaction with an input whatever its
sizes are.
-/

def readSizedVector (r : ByteReader α) : ByteReader (List α) := do
  let chSize ← readByte
  let size ← readSizeAfter chSize
  r.many size

private theorem reads_sizedVector {r : ByteReader α} {enc : α → Bytes} {xs : List α}
    (hsize : xs.length < 2 ^ 64) (h : ∀ x ∈ xs, Reads r (enc x) x) :
    Reads (readSizedVector r) (serializeVector enc xs) xs := by
  obtain ⟨b, size, hbytes, hread⟩ := exists_reads_sizeAfter hsize
  rw [serializeVector, hbytes]
  exact (reads_byte b).bind (hread.bind (reads_many h))

/-- Read a byte vector of any size. -/
def readSized : ByteReader Bytes := do
  let chSize ← readByte
  let size ← readSizeAfter chSize
  readBytes size

theorem reads_sized (h : bs.length < 2 ^ 64) : Reads readSized (serializeBytes bs) bs := by
  obtain ⟨b, size, hsize, hread⟩ := exists_reads_sizeAfter h
  rw [serializeBytes, hsize]
  exact (reads_byte b).bind (hread.bind (reads_bytes bs))

/-- The amount is a `CAmount` and the script has a size. -/
def CTxOut.Representable (txout : CTxOut) : Prop :=
  (-2 ^ 63 ≤ txout.nValue ∧ txout.nValue < 2 ^ 63) ∧ txout.scriptPubKey.length < 2 ^ 64

/-- Everything in the input has a size. -/
structure CTxIn.Representable (txin : CTxIn) : Prop where
  scriptSig : txin.scriptSig.length < 2 ^ 64
  stack : txin.scriptWitness.length < 2 ^ 64
  item : ∀ bs ∈ txin.scriptWitness, bs.length < 2 ^ 64

/-- Everything in the transaction has a size, and the amounts are `CAmount`s. -/
structure CTransaction.Representable (tx : CTransaction) : Prop where
  vin_length : tx.vin.length < 2 ^ 64
  vout_length : tx.vout.length < 2 ^ 64
  vin : ∀ txin ∈ tx.vin, txin.Representable
  vout : ∀ txout ∈ tx.vout, txout.Representable

def readSizedTxOut : ByteReader CTxOut := do
  let nValue ← readInt64
  let scriptPubKey ← readSized
  return ⟨nValue, scriptPubKey⟩

theorem reads_sizedTxOut {txout : CTxOut} (h : txout.Representable) :
    Reads readSizedTxOut txout.serialize txout :=
  (reads_int64 h.1).bind ((reads_sized h.2).bind_pure _)

def readSizedTxIn : ByteReader CTxIn := do
  let prevout ← COutPoint.unserialize
  let scriptSig ← readSized
  let nSequence ← readUInt32
  return ⟨prevout, scriptSig, nSequence, []⟩

private theorem reads_sizedVin (hlength : vin.length < 2 ^ 64)
    (h : ∀ txin ∈ vin, txin.Representable) :
    Reads (readSizedVector readSizedTxIn) (serializeVector CTxIn.serialize vin)
      (vin.map CTxIn.strip) := by
  have hmap : serializeVector serialize vin = serializeVector serialize (vin.map strip) := by
    rw [serializeVector, serializeVector, length_map, flatMap_map]
    rfl
  rw [hmap]
  refine reads_sizedVector (by simpa using hlength) fun x hx => ?_
  obtain ⟨txin, hmem, rfl⟩ := mem_map.mp hx
  rw [serialize, append_assoc]
  refine (reads_outPoint txin.prevout).bind ?_
  exact (reads_sized (h txin hmem).scriptSig).bind ((reads_uint32 txin.nSequence).bind_pure _)

/-- The inputs with the witnesses that stand behind the outputs. -/
def readSizedWitnesses (vin : List CTxIn) : ByteReader (List CTxIn) := do
  let witnesses ← (readSizedVector readSized).many vin.length
  return zipWith (fun txin stack => { txin with scriptWitness := stack }) vin witnesses

private theorem reads_sizedWitnesses (h : ∀ txin ∈ vin, txin.Representable) :
    Reads (readSizedWitnesses (vin.map CTxIn.strip))
      (vin.flatMap fun txin => serializeVector serializeBytes txin.scriptWitness) vin := by
  have hstacks : ∀ stack ∈ vin.map scriptWitness,
      Reads (readSizedVector readSized) (serializeVector serializeBytes stack) stack := by
    intro stack hmem
    obtain ⟨txin, htxin, rfl⟩ := mem_map.mp hmem
    exact reads_sizedVector (h txin htxin).stack fun bs hbs =>
      reads_sized ((h txin htxin).item bs hbs)
  have hread := (reads_many hstacks).bind_pure
    (zipWith (fun txin stack => { txin with scriptWitness := stack }) (vin.map strip))
  rw [zipWith_map, zipWith_self, length_map, flatMap_map] at hread
  rw [readSizedWitnesses, length_map]
  simpa [strip] using hread

def readSizedTransaction : ByteReader CTransaction := do
  let version ← readUInt32
  let vin ← readSizedVector readSizedTxIn
  if vin.isEmpty then do
    let _ ← readByte
    let vin ← readSizedVector readSizedTxIn
    let vout ← readSizedVector readSizedTxOut
    let vin ← readSizedWitnesses vin
    let nLockTime ← readUInt32
    return ⟨vin, vout, version, nLockTime⟩
  else do
    let vout ← readSizedVector readSizedTxOut
    let nLockTime ← readUInt32
    return ⟨vin, vout, version, nLockTime⟩

private theorem reads_sizedTransaction (h : tx.Representable) (hvin : tx.vin ≠ []) :
    Reads readSizedTransaction (tx.serialize true) tx := by
  have hinputs := reads_sizedVin h.vin_length h.vin
  have houtputs := reads_sizedVector h.vout_length fun txout hmem =>
    reads_sizedTxOut (h.vout txout hmem)
  cases hwitness : tx.hasWitness with
  | false =>
    have hbytes : tx.serialize true = serializeUInt32 tx.version ++
        (serializeVector serialize tx.vin ++
        (serializeVector CTxOut.serialize tx.vout ++ serializeUInt32 tx.nLockTime)) := by
      simp [CTransaction.serialize, hwitness]
    have hsome : tx.vin.isEmpty = false := by simpa using hvin
    rw [hbytes]
    rw [map_strip_of_not_hasWitness hwitness] at hinputs
    refine (reads_uint32 tx.version).bind (hinputs.bind ?_)
    rw [hsome]
    exact houtputs.bind ((reads_uint32 tx.nLockTime).bind_pure _)
  | true =>
    have hbytes : tx.serialize true = serializeUInt32 tx.version ++
        (serializeVector serialize [] ++ ([1] ++
        (serializeVector serialize tx.vin ++ (serializeVector CTxOut.serialize tx.vout ++
          ((tx.vin.flatMap fun txin => serializeVector serializeBytes txin.scriptWitness) ++
            serializeUInt32 tx.nLockTime))))) := by
      simp [CTransaction.serialize, hwitness]
    have hmark : Reads (readSizedVector readSizedTxIn) (serializeVector serialize []) [] :=
      reads_sizedVin (by decide) nofun
    rw [hbytes]
    refine (reads_uint32 tx.version).bind (hmark.bind ?_)
    refine (reads_byte 1).bind (hinputs.bind (houtputs.bind ?_))
    exact (reads_sizedWitnesses h.vin).bind ((reads_uint32 tx.nLockTime).bind_pure _)

/-- A transaction with an input is determined by its bytes. -/
theorem CTransaction.eq_of_serialize_eq (h : tx.Representable) (h' : tx'.Representable)
    (hvin : tx.vin ≠ []) (hvin' : tx'.vin ≠ []) (heq : tx.serialize true = tx'.serialize true) :
    tx = tx' :=
  eq_of_reads (reads_sizedTransaction h hvin) (heq ▸ reads_sizedTransaction h' hvin')

/-! ### Sizes -/

theorem length_le_length_flatMap_of_mem {f : α → Bytes} {xs : List α} {x : α} (hx : x ∈ xs) :
    (f x).length ≤ (xs.flatMap f).length := by
  induction xs with
  | nil => cases hx
  | cons y xs ih =>
    rw [flatMap_cons, length_append]
    rcases mem_cons.mp hx with rfl | hx
    · omega
    · have := ih hx
      omega

/-- A transaction that is not too large can be read back. -/
theorem CTransaction.readable_of_length (hsize : (tx.serialize false).length ≤ maxSize)
    (hvin : tx.vin.length ≤ (tx.serialize false).length)
    (hvout : tx.vout.length ≤ (tx.serialize false).length)
    (hvalues : ∀ txout ∈ tx.vout, -2 ^ 63 ≤ txout.nValue ∧ txout.nValue < 2 ^ 63) :
    tx.Readable := by
  have hlength : (tx.serialize false).length = 4 + (serializeVector CTxIn.serialize tx.vin).length +
        (serializeVector CTxOut.serialize tx.vout).length + 4 := by
    simp only [serialize, serializeUInt32, length_append, writeLE_length,
      Bool.false_and, Bool.false_eq_true, if_false, length_nil]
  refine ⟨by omega, by omega, fun txin hmem => ?_, fun txout hmem => ?_, hvalues⟩
  · have hle := length_le_length_flatMap_of_mem (f := CTxIn.serialize) hmem
    have hvector : (tx.vin.flatMap CTxIn.serialize).length ≤
        (serializeVector CTxIn.serialize tx.vin).length := by
      simp [serializeVector]
    have hscript : txin.scriptSig.length ≤ txin.serialize.length := by
      simp only [CTxIn.serialize, serializeBytes, length_append]
      omega
    omega
  · have hle := length_le_length_flatMap_of_mem (f := CTxOut.serialize) hmem
    have hvector : (tx.vout.flatMap CTxOut.serialize).length ≤
        (serializeVector CTxOut.serialize tx.vout).length := by
      simp [serializeVector]
    have hscript : txout.scriptPubKey.length ≤ txout.serialize.length := by
      simp only [CTxOut.serialize, serializeBytes, length_append]
      omega
    omega

end Tessera.Tx
