import Tessera.Tx.Unserialize

/-!
# Canonical serializations of transactions

`UnserializeTransaction` accepts a string only if it is what `SerializeTransaction` puts out for the
transaction: sizes are in their shortest form, the mark of an extended serialization is followed by
known flags, and a witness is announced only if there is one.
-/

namespace Tessera.Tx

open Lib List CTxIn

/-! ### What is read -/

private theorem takes_blob (n : Nat) : Takes (readBlob n) fun used b => used = b.data := by
  refine ((takes_take _ n).bind (G := fun bs used b => used = [] ∧ bs = b.data) fun bs => ?_).mono
    ?_
  · unfold Blob.ofBytes?
    split_ifs
    · refine (takes_pure _).mono ?_
      rintro used _ ⟨rfl, rfl⟩
      exact ⟨rfl, rfl⟩
    · intro ts b rest hrun
      cases hrun
  · rintro used b ⟨bs, us, vs, rfl, ⟨rfl, -⟩, rfl, rfl⟩
    rw [append_nil]

private theorem takes_uint32 : Takes readUInt32 fun used n => used = serializeUInt32 n := by
  refine (takes_int 4).map.mono ?_
  rintro used n ⟨x, ⟨rfl, hlt⟩, rfl⟩
  rw [serializeUInt32, UInt32.toNat_ofNat_of_lt' hlt]

private theorem takes_int64 : Takes readInt64 fun used n => used = serializeInt64 n := by
  refine (takes_int 8).map.mono ?_
  rintro used n ⟨x, ⟨rfl, hlt⟩, rfl⟩
  have hx : (signed64 x % 2 ^ 64).toNat = x := by
    unfold signed64
    split <;> omega
  rw [serializeInt64, hx]

private theorem takes_byteVector : Takes readByteVector fun used bs =>
    used = serializeBytes bs := by
  refine (takes_compactSize.bind fun n => takes_take _ n).mono ?_
  rintro used bs ⟨n, us, vs, rfl, rfl, rfl, rfl⟩
  rfl

private theorem takes_txIn : Takes CTxIn.unserialize fun used txin => used = txin.serialize ∧
    txin.scriptWitness = [] := by
  have hprevout : Takes COutPoint.unserialize fun used o => used = o.serialize := by
    refine ((takes_blob 32).bind fun hash => takes_uint32.bind fun n =>
      takes_pure (⟨hash, n⟩ : COutPoint)).mono ?_
    rintro used _ ⟨hash, us, vs, rfl, rfl, n, us, vs, rfl, rfl, rfl, rfl⟩
    rfl
  refine (hprevout.bind fun prevout => takes_byteVector.bind fun sig =>
    takes_uint32.bind fun nSequence =>
    takes_pure (⟨prevout, sig, nSequence, []⟩ : CTxIn)).mono ?_
  rintro used _ ⟨prevout, us, vs, rfl, rfl, sig, us, vs, rfl, rfl, n, us, vs, rfl, rfl, rfl, rfl⟩
  simp [serialize]

private theorem takes_txOut : Takes CTxOut.unserialize fun used txout =>
    used = txout.serialize := by
  refine (takes_int64.bind fun nValue => takes_byteVector.bind fun script =>
    takes_pure (⟨nValue, script⟩ : CTxOut)).mono ?_
  rintro used _ ⟨nValue, us, vs, rfl, rfl, script, us, vs, rfl, rfl, rfl, rfl⟩
  rw [append_nil]
  rfl

private theorem takes_vin : Takes (readVector CTxIn.unserialize) fun used vin =>
    used = serializeVector CTxIn.serialize vin ∧ ∀ txin ∈ vin, txin.scriptWitness = [] :=
  takes_txIn.vector

private theorem takes_outputs (vin : List CTxIn) (flags : UInt8) :
    Takes (readInOut.readOutputs vin flags) fun used p =>
    used = serializeVector CTxOut.serialize p.2.1 ∧ p.1 = vin ∧ p.2.2 = flags := by
  have hvout := Takes.vector (Q := fun _ => True) (takes_txOut.mono fun _ _ h => ⟨h, trivial⟩)
  refine (hvout.bind fun vout => takes_pure (vin, vout, flags)).mono ?_
  rintro used _ ⟨vout, us, vs, rfl, ⟨rfl, -⟩, rfl, rfl⟩
  exact ⟨append_nil _, rfl, rfl⟩

/-- The bytes of inputs and outputs, behind a mark if there are flags. -/
def IsInOut (used : Bytes) (p : List CTxIn × List CTxOut × UInt8) : Prop :=
  (∀ txin ∈ p.1, txin.scriptWitness = []) ∧ used = (if p.2.2 = 0 then [] else [0, p.2.2]) ++
    (serializeVector CTxIn.serialize p.1 ++ serializeVector CTxOut.serialize p.2.1)

private theorem takes_inOut : Takes (readInOut true) IsInOut := by
  -- no flags behind the mark are the bytes of a transaction without inputs and outputs
  have hextended (flags : UInt8) :
      Takes (if flags = 0 then pure ([], [], 0) else readInOut.readFlagged flags)
      fun used p => IsInOut ([0, flags] ++ used) p := by
    split_ifs with hzero
    · refine (takes_pure _).mono ?_
      rintro used _ ⟨rfl, rfl⟩
      exact ⟨nofun, by rw [hzero]; rfl⟩
    · refine (takes_vin.bind fun vin => takes_outputs vin flags).mono ?_
      rintro used ⟨_, vout, _⟩ ⟨vin, us, vs, rfl, ⟨rfl, hvin⟩, rfl, rfl, rfl⟩
      exact ⟨hvin, by rw [if_neg hzero]⟩
  have hrest (vin : List CTxIn) : Takes (if vin.isEmpty && true then readInOut.readExtended
      else readInOut.readOutputs vin 0) fun used p => (∀ txin ∈ vin, txin.scriptWitness = []) →
        IsInOut (serializeVector serialize vin ++ used) p := by
    cases vin with
    | nil =>
      refine (takes_byte.bind hextended).mono ?_
      rintro used p ⟨flags, us, vs, rfl, rfl, h⟩ -
      exact h
    | cons txin vin =>
      refine (takes_outputs _ 0).mono ?_
      rintro used ⟨_, vout, _⟩ ⟨rfl, rfl, rfl⟩ hvin
      exact ⟨hvin, rfl⟩
  refine (takes_vin.bind hrest).mono ?_
  rintro used p ⟨vin, us, vs, rfl, ⟨rfl, hvin⟩, h⟩
  exact h hvin

private theorem takes_witnesses (vin : List CTxIn) : Takes (readWitnesses vin) fun used vin' =>
    used = (vin'.flatMap fun txin => serializeVector serializeBytes txin.scriptWitness) ∧
      vin'.map CTxIn.serialize = vin.map CTxIn.serialize := by
  induction vin with
  | nil =>
    refine (takes_pure []).mono ?_
    rintro used _ ⟨rfl, rfl⟩
    exact ⟨rfl, rfl⟩
  | cons txin vin ih =>
    have hstack := Takes.vector (Q := fun _ => True)
      (takes_byteVector.mono fun _ _ h => ⟨h, trivial⟩)
    refine (hstack.bind fun stack => ih.bind fun rest =>
      takes_pure ({ txin with scriptWitness := stack } :: rest)).mono ?_
    rintro used _ ⟨stack, us, vs, rfl, ⟨rfl, -⟩, rest, us, vs, rfl, ⟨rfl, hrest⟩, rfl, rfl⟩
    rw [append_nil, map_cons, hrest]
    exact ⟨rfl, rfl⟩

/-- What follows the outputs: the witnesses if the flags say so, and there is one. -/
theorem takes_tail (version : UInt32) (vin : List CTxIn) (vout : List CTxOut) (flags : UInt8) :
    Takes (readTail true version vin vout flags) fun used tx => tx.version = version ∧
    tx.vout = vout ∧ (flags = 0 ∧ tx.vin = vin ∧ used = serializeUInt32 tx.nLockTime ∨
        flags = 1 ∧ tx.hasWitness ∧ tx.vin.map CTxIn.serialize = vin.map CTxIn.serialize ∧
          used = (tx.vin.flatMap fun txin => serializeVector serializeBytes txin.scriptWitness) ++
            serializeUInt32 tx.nLockTime) := by
  have hlock (vin : List CTxIn) (flags : UInt8) :
      Takes (readTail.readLockTime version vout vin flags) fun used tx =>
      flags = 0 ∧ tx = ⟨vin, vout, version, tx.nLockTime⟩ ∧
        used = serializeUInt32 tx.nLockTime := by
    refine ((takes_check _ _).bind fun _ => takes_uint32.bind fun nLockTime =>
      takes_pure (⟨vin, vout, version, nLockTime⟩ : CTransaction)).mono ?_
    rintro used _ ⟨_, us, vs, rfl, ⟨rfl, hflags⟩, nLockTime, us, vs, rfl, rfl, rfl, rfl⟩
    exact ⟨beq_iff_eq.mp hflags, rfl, by simp⟩
  unfold readTail
  split_ifs with hbit
  · refine (Takes.bind (r := readWitnessRecord vin) ((takes_witnesses vin).bind fun vin' =>
      (takes_check _ _).bind fun _ => takes_pure vin') fun vin' => hlock vin' (flags ^^^ 1)).mono ?_
    rintro used tx ⟨_, us, vs, rfl,
      ⟨vin', us, vs, rfl, ⟨rfl, hsame⟩, _, us, vs, rfl, ⟨rfl, hany⟩, rfl, rfl⟩, hflags, htx, rfl⟩
    -- the flag of the witnesses is the only one
    rw [htx]
    exact ⟨rfl, rfl, .inr ⟨by rwa [UInt8.xor_eq_zero_iff] at hflags, hany, hsame, by simp⟩⟩
  · refine (hlock vin flags).mono ?_
    rintro used tx ⟨hflags, htx, rfl⟩
    rw [htx]
    exact ⟨rfl, rfl, .inl ⟨hflags, rfl, rfl⟩⟩

/-- A string is read only if it is the serialization of what is read. -/
theorem takes_transaction : Takes (CTransaction.unserialize true) fun used tx =>
    used = tx.serialize true := by
  refine (takes_uint32.bind fun version => takes_inOut.bind fun p =>
    takes_tail version p.1 p.2.1 p.2.2).mono ?_
  rintro used tx ⟨_, us, vs, rfl, rfl, ⟨vin, vout, flags⟩, us, vs, rfl, ⟨hvin, rfl⟩,
    rfl, rfl, htail⟩
  rcases htail with ⟨rfl, rfl, rfl⟩ | ⟨rfl, hwitness, hsame, rfl⟩
  · have hnone : tx.hasWitness = false := any_eq_false.mpr fun txin hmem => by simp [hvin txin hmem]
    simp [CTransaction.serialize, hnone]
  · have hvector : serializeVector serialize tx.vin = serializeVector serialize vin := by
      have hlength := congrArg length hsame
      rw [length_map, length_map] at hlength
      rw [serializeVector, serializeVector, flatMap_def, flatMap_def, hsame, hlength]
    simp [CTransaction.serialize, hwitness, hvector]
    rfl

/-- Serializations of transactions are unambiguous: a string that is read to its end is the
serialization of the transaction, and a transaction with an input is read back from its
serialization, or from the one without witnesses except for these, if no vector of it is longer than
`MAX_SIZE`. -/
theorem unserialize_unambiguous :
    (∀ bs tx, (CTransaction.unserialize true).run bs = .ok (tx, []) → tx.serialize true = bs) ∧
    ∀ tx : CTransaction, tx.vin ≠ [] → tx.WitnessReadable →
      (CTransaction.unserialize true).run (tx.serialize true) = .ok (tx, []) ∧
      (CTransaction.unserialize false).run (tx.serialize false) = .ok (tx.strip, []) := by
  refine ⟨fun bs tx hrun => ?_, fun tx hvin h => ⟨?_, ?_⟩⟩
  · obtain ⟨used, rfl, rfl⟩ := takes_transaction bs tx [] hrun
    rw [append_nil]
  · simpa using reads_transaction_witness h hvin []
  · simpa using reads_transaction h.toReadable []

theorem unserialize_unambiguous_signed :
    (⟨[], [], 1, 2⟩ : CTransaction).serialize true = [1, 0, 0, 0, 0, 0, 2, 0, 0, 0] ∧
      let tx : CTransaction := ⟨[⟨⟨.null 32, 0⟩, [], 0, [[7]]⟩], [⟨5, []⟩], 1, 0⟩
      (CTransaction.unserialize true).run (tx.serialize true) = .ok (tx, []) :=
  ⟨unserialize_unambiguous.1 _ _ rfl,
    (unserialize_unambiguous.2 ⟨[⟨⟨.null 32, 0⟩, [], 0, [[7]]⟩], [⟨5, []⟩], 1, 0⟩
    (by decide) ⟨⟨by decide, by decide, by decide, by decide, by decide⟩, by decide, by decide⟩).1⟩

private theorem unserialize_of_lt {tx : CTransaction} (h : maxSize < tx.vin.length)
    (hlt : tx.vin.length < 2 ^ 64) :
    (CTransaction.unserialize false).run (tx.serialize false) =
      .error "ReadCompactSize(): size too large" := by
  have hbytes : tx.serialize false = serializeUInt32 tx.version ++
      (writeCompactSize tx.vin.length ++
      (tx.vin.flatMap serialize ++ (serializeVector CTxOut.serialize tx.vout ++
        serializeUInt32 tx.nLockTime))) := by
    simp [CTransaction.serialize, serializeVector]
  rw [CTransaction.unserialize, hbytes, (reads_uint32 tx.version).run_bind]
  exact run_bind_of_error (run_bind_of_error (run_bind_of_error (readCompactSize_of_lt h hlt _)))

/-- A transaction with more inputs than `MAX_SIZE` is not read back. -/
theorem unserialize_too_large : (CTransaction.unserialize false).run
    ((⟨List.replicate (maxSize + 1) ⟨⟨.null 32, 0⟩, [], 0, []⟩, [], 1, 0⟩ : CTransaction).serialize
      false) = .error "ReadCompactSize(): size too large" :=
  unserialize_of_lt (length_replicate.symm ▸ Nat.lt_succ_self maxSize)
    (length_replicate.symm ▸ (by decide : maxSize + 1 < _))

end Tessera.Tx
