import Tessera.Tx.Unserialize
import Tessera.Validation.ConnectSpec

/-!
# Reading blocks

The reading side of `primitives/block.h`. A header whose version is of 32 bits is read back, and so
is a transaction with inputs whose serialization with witnesses is not too large.
-/

namespace Tessera.Validation

open Lib Tx List CTransaction

/-- The signed integer that 32 bits stand for. -/
def signed32 (n : Nat) : Int := if n < 2 ^ 31 then n else n - 2 ^ 32

/-- Read a signed 32-bit integer. -/
def readInt32 : ByteReader Int := signed32 <$> readInt 4

def CBlockHeader.unserialize : ByteReader CBlockHeader := do
  let nVersion ← readInt32
  let hashPrevBlock ← readBlob 32
  let hashMerkleRoot ← readBlob 32
  let nTime ← readUInt32
  let nBits ← readUInt32
  let nNonce ← readUInt32
  return ⟨nVersion, hashPrevBlock, hashMerkleRoot, nTime, nBits, nNonce⟩

/-- The version is an `int32_t`. -/
def CBlockHeader.InRange (header : CBlockHeader) : Prop :=
  -2 ^ 31 ≤ header.nVersion ∧ header.nVersion < 2 ^ 31

instance (header : CBlockHeader) : Decidable header.InRange := inferInstanceAs (Decidable (_ ∧ _))

private theorem reads_int32 {n : Int} (h : -2 ^ 31 ≤ n ∧ n < 2 ^ 31) :
    Reads readInt32 (writeLE 4 (n % 2 ^ 32).toNat) n := by
  have hlt : (n % 2 ^ 32).toNat < 256 ^ 4 := by omega
  have hsigned : signed32 (n % 2 ^ 32).toNat = n := by
    unfold signed32
    split <;> omega
  have := (reads_int hlt).map (f := signed32)
  rwa [hsigned] at this

theorem reads_header {header : CBlockHeader} (h : header.InRange) :
    Reads CBlockHeader.unserialize header.serialize header := by
  simp only [CBlockHeader.serialize, append_assoc]
  refine (reads_int32 h).bind ?_
  refine (reads_blob header.hashPrevBlock).bind ?_
  refine (reads_blob header.hashMerkleRoot).bind ?_
  refine (reads_uint32 header.nTime).bind ?_
  refine (reads_uint32 header.nBits).bind ?_
  exact (reads_uint32 header.nNonce).bind_pure _

@[simp] theorem CBlockHeader.length_serialize (header : CBlockHeader) :
    header.serialize.length = 80 := by
  simp [serialize, serializeUInt32, Blob.size_eq]

/-! ### Transactions -/

private theorem length_serialize_false_le (tx : CTransaction) :
    (tx.serialize false).length ≤ (tx.serialize true).length := by
  simp only [serialize, length_append, Bool.false_and, Bool.false_eq_true, if_false, length_nil]
  omega

variable {tx : CTransaction}

private theorem one_le_length_serializeBytes (bs : Bytes) : 1 ≤ (serializeBytes bs).length := by
  simp only [serializeBytes, writeCompactSize, length_append]
  split
  · rw [length_singleton]
    omega
  split
  · rw [length_cons]
    omega
  split
  · rw [length_cons]
    omega
  · rw [length_cons]
    omega

/-- A transaction whose serialization is not too large can be read back with its witnesses. -/
theorem CTransaction.witnessReadable_of_length (hsize : (tx.serialize true).length ≤ maxSize)
    (hvalues : ∀ txout ∈ tx.vout, -2 ^ 63 ≤ txout.nValue ∧ txout.nValue < 2 ^ 63) :
    tx.WitnessReadable := by
  have hfalse := length_serialize_false_le tx
  have hreadable := readable_of_length (hfalse.trans hsize) (vin_length_le tx)
    (vout_length_le tx) hvalues
  -- a stack and its items are no longer than all witnesses together
  have hstack : ∀ txin ∈ tx.vin, txin.scriptWitness ≠ [] →
      (serializeVector serializeBytes txin.scriptWitness).length ≤ maxSize := by
    intro txin htxin hne
    have hwitness : tx.hasWitness :=
      any_eq_true.mpr ⟨txin, htxin, by simpa using hne⟩
    have hle := length_le_length_flatMap_of_mem
      (f := fun txin : CTxIn => serializeVector serializeBytes txin.scriptWitness) htxin
    simp only [serialize, length_append, hwitness, Bool.and_self, if_true] at hsize
    omega
  refine ⟨hreadable, fun txin htxin => ?_, fun txin htxin bs hbs => ?_⟩
  · by_cases hne : txin.scriptWitness = []
    · rw [hne]
      exact Nat.zero_le _
    have hcount := length_le_length_flatMap one_le_length_serializeBytes txin.scriptWitness
    have := hstack txin htxin hne
    simp only [serializeVector, length_append] at this
    omega
  · have hitem := length_le_length_flatMap_of_mem (f := serializeBytes) hbs
    have := hstack txin htxin (ne_nil_of_mem hbs)
    simp only [serializeVector, length_append] at this
    simp only [serializeBytes, length_append] at hitem
    omega

private theorem TxChecked.int64 (h : TxChecked tx) :
    ∀ txout ∈ tx.vout, -2 ^ 63 ≤ txout.nValue ∧ txout.nValue < 2 ^ 63 := by
  have hrange : ∀ n : Int, 0 ≤ n ∧ n ≤ 2100000000000000 → -2 ^ 63 ≤ n ∧ n < 2 ^ 63 := by omega
  exact fun txout hout => hrange _ (moneyRange_iff.mp (h.values txout hout))

/-- A transaction that has passed `CheckTransaction` is read back. -/
theorem TxChecked.reads (h : TxChecked tx) (hsize : (tx.serialize true).length ≤ maxSize) :
    Reads (CTransaction.unserialize true) (tx.serialize true) tx :=
  reads_transaction_witness (CTransaction.witnessReadable_of_length hsize h.int64) h.inputs

/-! ### Blocks -/

def CBlock.unserialize : ByteReader CBlock := do
  let header ← CBlockHeader.unserialize
  let vtx ← readVector (CTransaction.unserialize true)
  return ⟨header, vtx⟩

/-- A block that has passed `CheckBlock` is read back, unless it is too large. -/
theorem reads_block {block : CBlock} (h : BlockChecked block) (hrange : block.header.InRange)
    (hsize : (block.serialize true).length ≤ maxSize) : Reads CBlock.unserialize
      (block.serialize true) block := by
  have hcount : block.vtx.length ≤ maxSize := h.size.trans (by decide)
  have hvtx : Reads (readVector (unserialize true))
      (serializeVector (serialize true) block.vtx) block.vtx := by
    refine reads_vector hcount fun tx htx => (h.checked tx htx).reads ?_
    -- a transaction takes part of the serialization of its block
    have hpart := length_le_length_flatMap_of_mem (f := serialize true) htx
    rw [CBlock.serialize, serializeVector, length_append, length_append] at hsize
    omega
  exact (reads_header hrange).bind (hvtx.bind_pure fun vtx => (⟨block.header, vtx⟩ : CBlock))

end Tessera.Validation
