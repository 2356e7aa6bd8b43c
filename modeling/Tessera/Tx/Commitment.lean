import Tessera.Tx.SigHash
import Tessera.Tx.Unserialize

/-!
# What a witness signature commits to

`SignatureHash` of `script/interpreter.cpp` for `SigVersion::WITNESS_V0` hashes one message, three
parts of which are hashes themselves, or null where the hash type leaves them out. The message can
be read back, and so can the outpoints, the sequence numbers and the outputs below the three hashes,
although nothing separates them and nothing counts them. Hence two signature hashes agree exactly if
the hash types and everything these cover agree.
-/

namespace Tessera.Tx

open Lib Script List

/-! ### The message -/

/-- What `SignatureHash` writes into its hasher for `SigVersion::WITNESS_V0`. -/
@[ext]
structure WitnessMessage where
  version : UInt32
  hashPrevouts : Uint256
  hashSequence : Uint256
  prevout : COutPoint
  scriptCode : CScript
  amount : CAmount
  nSequence : UInt32
  hashOutputs : Uint256
  nLockTime : UInt32
  nHashType : UInt32

def WitnessMessage.serialize (m : WitnessMessage) : Bytes :=
  serializeUInt32 m.version ++ m.hashPrevouts.data ++ m.hashSequence.data ++ m.prevout.serialize ++
    serializeBytes m.scriptCode ++ serializeInt64 m.amount ++ serializeUInt32 m.nSequence ++
    m.hashOutputs.data ++ serializeUInt32 m.nLockTime ++ serializeUInt32 m.nHashType

def WitnessMessage.spent (m : WitnessMessage) : CTxOut := ⟨m.amount, m.scriptCode⟩

private theorem WitnessMessage.serialize_inj {m₁ m₂ : WitnessMessage}
    (h : m₁.serialize = m₂.serialize) (h₁ : m₁.spent.Representable) (h₂ : m₂.spent.Representable) :
    m₁ = m₂ := by
  let r : ByteReader WitnessMessage := do
    let version ← readUInt32
    let hashPrevouts ← readBlob 32
    let hashSequence ← readBlob 32
    let prevout ← COutPoint.unserialize
    let scriptCode ← readSized
    let amount ← readInt64
    let nSequence ← readUInt32
    let hashOutputs ← readBlob 32
    let nLockTime ← readUInt32
    let nHashType ← readUInt32
    return ⟨version, hashPrevouts, hashSequence, prevout, scriptCode, amount,
      nSequence, hashOutputs, nLockTime, nHashType⟩
  have hread (m : WitnessMessage) (hm : m.spent.Representable) : Reads r m.serialize m := by
    simp only [serialize, append_assoc]
    refine (reads_uint32 _).bind ((reads_blob _).bind ((reads_blob _).bind ((reads_outPoint _).bind
      ((reads_sized hm.2).bind ((reads_int64 hm.1).bind ((reads_uint32 _).bind ((reads_blob _).bind
      ((reads_uint32 _).bind ?_))))))))
    exact (reads_uint32 _).bind_pure _
  exact eq_of_reads (hread m₁ h₁) (h ▸ hread m₂ h₂)

/-! ### The lists that are hashed -/

private theorem outputs_inj {vout₁ vout₂ : List CTxOut} (h₁ : ∀ txout ∈ vout₁, txout.Representable)
    (h₂ : ∀ txout ∈ vout₂, txout.Representable)
    (h : vout₁.flatMap CTxOut.serialize = vout₂.flatMap CTxOut.serialize) : vout₁ = vout₂ := by
  have hne (txout : CTxOut) : txout.serialize ≠ [] := by
    simp [CTxOut.serialize, serializeInt64, writeLE]
  exact eq_of_flatMap_eq hne (fun o ho => reads_sizedTxOut (h₁ o ho))
    (fun o ho => reads_sizedTxOut (h₂ o ho)) h

private theorem prevouts_inj {os₁ os₂ : List COutPoint}
    (h : os₁.flatMap COutPoint.serialize = os₂.flatMap COutPoint.serialize) : os₁ = os₂ := by
  have hne (o : COutPoint) : o.serialize ≠
    [] := by simp [COutPoint.serialize, serializeUInt32, writeLE]
  exact eq_of_flatMap_eq hne (fun o _ => reads_outPoint o) (fun o _ => reads_outPoint o) h

private theorem sequences_inj {ns₁ ns₂ : List UInt32}
    (h : ns₁.flatMap serializeUInt32 = ns₂.flatMap serializeUInt32) : ns₁ = ns₂ := by
  have hne (n : UInt32) : serializeUInt32 n ≠ [] := by simp [serializeUInt32, writeLE]
  exact eq_of_flatMap_eq hne (fun n _ => reads_uint32 n) (fun n _ => reads_uint32 n) h

/-! ### Midstates -/

/-- The midstate hashes of `PrecomputedTransactionData`. -/
structure Midstates where
  hashPrevouts : Uint256 := .null 32
  hashSequence : Uint256 := .null 32
  hashOutputs : Uint256 := .null 32
  bip143Ready : Bool := false

variable (P : Primitives)

namespace Midstates

/-- The hashes that `SignatureHash` computes if it has no cache. -/
def compute (tx : CTransaction) : Midstates :=
  ⟨computePrevoutsHash P tx, computeSequencesHash P tx, computeOutputsHash P tx, true⟩

/-- `PrecomputedTransactionData::Init`: the hashes are only computed for a transaction with a
witness, or if the caller asks for them. -/
def init (tx : CTransaction) (force : Bool) : Midstates :=
  if force || tx.vin.any fun txin => !txin.scriptWitness.isEmpty then compute P tx else {}

/-- The hashes that `SignatureHash` uses: those of a cache that is ready. -/
def ofCache (cache : Option Midstates) (tx : CTransaction) : Midstates :=
  (cache.filter bip143Ready).getD (compute P tx)

private theorem ofCache_init (tx : CTransaction) (force : Bool) : ofCache P
    (some (init P tx force)) tx = compute P tx := by
  unfold init
  split <;> rfl

end Midstates

namespace TxInput

/-- The message for an input, given the midstate hashes. -/
def message (t : TxInput) (ms : Midstates) (scriptCode : CScript) (nHashType : UInt32) :
    WitnessMessage :=
  let mode := hashMode nHashType.toNat
  { version := t.tx.version
    hashPrevouts := if anyoneCanPay nHashType.toNat then .null 32 else ms.hashPrevouts
    hashSequence :=
      if anyoneCanPay nHashType.toNat ∨ mode = sigHashSingle ∨ mode = sigHashNone then .null 32
      else ms.hashSequence
    prevout := t.txin.prevout
    scriptCode
    amount := t.amount
    nSequence := t.txin.nSequence
    hashOutputs :=
      if mode ≠ sigHashSingle ∧ mode ≠ sigHashNone then ms.hashOutputs
      else if mode = sigHashSingle then (t.tx.vout[t.nIn]?).elim (.null 32) fun txout =>
        hash P txout.serialize
      else .null 32
    nLockTime := t.tx.nLockTime
    nHashType }

/-- `SignatureHash` for `SigVersion::WITNESS_V0`, with the cache it may be given. -/
def cachedSighash (t : TxInput) (cache : Option Midstates) (scriptCode : CScript)
    (nHashType : UInt32) : Uint256 :=
  hash P (t.message P (.ofCache P cache t.tx) scriptCode nHashType).serialize

private theorem sighash_eq (t : TxInput) (scriptCode : CScript) (nHashType : UInt32) :
    t.sighash P scriptCode nHashType.toNat .witnessV0 = t.cachedSighash P none scriptCode
      nHashType := by
  have houtputs : hashOutputs P t.tx t.nIn nHashType.toNat =
      (t.message P (.compute P t.tx) scriptCode nHashType).hashOutputs := by
    unfold hashOutputs message
    cases t.tx.vout[t.nIn]? <;> rfl
  change hash P (_ ++ (hashOutputs P t.tx t.nIn nHashType.toNat).data ++ _ ++ _) = _
  rw [houtputs]
  rfl

/-- The strings that are hashed for a signature. -/
def hashed (t : TxInput) (scriptCode : CScript) (nHashType : UInt32) : List Bytes :=
  [(t.message P (.compute P t.tx) scriptCode nHashType).serialize,
    (t.tx.vin.map CTxIn.prevout).flatMap COutPoint.serialize,
    (t.tx.vin.map CTxIn.nSequence).flatMap serializeUInt32, t.tx.vout.flatMap CTxOut.serialize] ++
    (t.tx.vout[t.nIn]?).toList.map CTxOut.serialize

/-- The amounts and scripts that are signed are such as their types can hold. -/
def Representable (t : TxInput) (scriptCode : CScript) : Prop :=
  ∀ txout ∈ (⟨t.amount, scriptCode⟩ :: t.tx.vout : List CTxOut), txout.Representable

end TxInput

/-- The hash tells the strings apart, and none of them hashes to null. -/
structure HashesApart (bss : List Bytes) : Prop where
  inj : ∀ bs ∈ bss, ∀ bs' ∈ bss, hash P bs = hash P bs' → bs = bs'
  ne_null : ∀ bs ∈ bss, hash P bs ≠ .null 32

/-- Two inputs agree in everything that the hash type covers. -/
structure SignsSame (nHashType : Nat) (t₁ t₂ : TxInput) (code₁ code₂ : CScript) : Prop where
  version : t₁.tx.version = t₂.tx.version
  nLockTime : t₁.tx.nLockTime = t₂.tx.nLockTime
  prevout : t₁.txin.prevout = t₂.txin.prevout
  nSequence : t₁.txin.nSequence = t₂.txin.nSequence
  scriptCode : code₁ = code₂
  amount : t₁.amount = t₂.amount
  prevouts : ¬anyoneCanPay nHashType → t₁.tx.vin.map CTxIn.prevout = t₂.tx.vin.map CTxIn.prevout
  sequences : ¬(anyoneCanPay nHashType ∨ hashMode nHashType = sigHashSingle ∨ hashMode nHashType =
    sigHashNone) → t₁.tx.vin.map CTxIn.nSequence = t₂.tx.vin.map CTxIn.nSequence
  outputs : hashMode nHashType ≠ sigHashSingle → hashMode nHashType ≠ sigHashNone →
    t₁.tx.vout = t₂.tx.vout
  output : hashMode nHashType = sigHashSingle → t₁.tx.vout[t₁.nIn]? = t₂.tx.vout[t₂.nIn]?

variable {P}

private theorem computePrevoutsHash_eq (tx : CTransaction) :
    computePrevoutsHash P tx = hash P ((tx.vin.map CTxIn.prevout).flatMap COutPoint.serialize) := by
  rw [flatMap_map]
  rfl

private theorem computeSequencesHash_eq (tx : CTransaction) :
    computeSequencesHash P tx = hash P ((tx.vin.map CTxIn.nSequence).flatMap serializeUInt32) := by
  rw [flatMap_map]
  rfl

private theorem ite_null_eq_iff {c : Prop} [Decidable c] {x y : Uint256} :
    (if c then .null 32 else x) = (if c then .null 32 else y) ↔ (¬c → x = y) := by
  split <;> simp [*]

private theorem output_eq_iff {bss : List Bytes} (hP : HashesApart P bss) (o₁ o₂ : Option CTxOut)
    (ho₁ : ∀ txout ∈ o₁, txout.Representable ∧ txout.serialize ∈ bss)
    (ho₂ : ∀ txout ∈ o₂, txout.Representable ∧ txout.serialize ∈ bss) :
    (o₁.elim (.null 32) fun txout => hash P txout.serialize) =
      (o₂.elim (.null 32) fun txout => hash P txout.serialize) ↔ o₁ = o₂ := by
  refine ⟨fun heq => ?_, fun heq => heq ▸ rfl⟩
  match o₁, o₂ with
  | none, none => rfl
  | none, some b => exact absurd heq.symm (hP.ne_null _ (ho₂ b rfl).2)
  | some a, none => exact absurd heq (hP.ne_null _ (ho₁ a rfl).2)
  | some a, some b =>
    have hbytes := hP.inj _ (ho₁ a rfl).2 _ (ho₂ b rfl).2 heq
    have hlists : [a] = [b] := outputs_inj (by simpa using (ho₁ a rfl).1)
      (by simpa using (ho₂ b rfl).1) (by simpa using hbytes)
    rw [(cons.inj hlists).1]

open TxInput

/-- Messages of one hash type agree exactly if everything that it covers does. -/
theorem message_eq_iff {t₁ t₂ : TxInput} {code₁ code₂ : CScript} {h : UInt32}
    (hP : HashesApart P (t₁.hashed P code₁ h ++ t₂.hashed P code₂ h))
    (ht₁ : ∀ txout ∈ t₁.tx.vout, txout.Representable)
    (ht₂ : ∀ txout ∈ t₂.tx.vout, txout.Representable) :
    t₁.message P (.compute P t₁.tx) code₁ h = t₂.message P (.compute P t₂.tx) code₂ h ↔
      SignsSame h.toNat t₁ t₂ code₁ code₂ := by
  have hinj {bs bs' : Bytes} (hbs : bs ∈ t₁.hashed P code₁ h) (hbs' : bs' ∈ t₂.hashed P code₂ h) :
      hash P bs = hash P bs' ↔ bs = bs' :=
    ⟨hP.inj bs (mem_append_left _ hbs) bs' (mem_append_right _ hbs'), congrArg (hash P)⟩
  have hprevouts : computePrevoutsHash P t₁.tx = computePrevoutsHash P t₂.tx ↔
      t₁.tx.vin.map CTxIn.prevout = t₂.tx.vin.map CTxIn.prevout := by
    rw [computePrevoutsHash_eq, computePrevoutsHash_eq, hinj (by simp [hashed]) (by simp [hashed])]
    exact ⟨prevouts_inj, fun heq => heq ▸ rfl⟩
  have hsequences : computeSequencesHash P t₁.tx = computeSequencesHash P t₂.tx ↔
      t₁.tx.vin.map CTxIn.nSequence = t₂.tx.vin.map CTxIn.nSequence := by
    rw [computeSequencesHash_eq, computeSequencesHash_eq, hinj (by simp [hashed])
      (by simp [hashed])]
    exact ⟨sequences_inj, fun heq => heq ▸ rfl⟩
  have houtputs : computeOutputsHash P t₁.tx = computeOutputsHash P t₂.tx ↔ t₁.tx.vout =
      t₂.tx.vout := by
    rw [computeOutputsHash, computeOutputsHash, hinj (by simp [hashed]) (by simp [hashed])]
    exact ⟨outputs_inj ht₁ ht₂, fun heq => heq ▸ rfl⟩
  have houtput := output_eq_iff hP t₁.tx.vout[t₁.nIn]? t₂.tx.vout[t₂.nIn]?
    (fun txout ho => ⟨ht₁ txout (mem_of_getElem? ho), by simp_all [hashed]⟩)
    (fun txout ho => ⟨ht₂ txout (mem_of_getElem? ho), by simp_all [hashed]⟩)
  have hmode : (t₁.message P (.compute P t₁.tx) code₁ h).hashOutputs =
      (t₂.message P (.compute P t₂.tx) code₂ h).hashOutputs ↔
      (hashMode h.toNat ≠ sigHashSingle → hashMode h.toNat ≠ sigHashNone →
        t₁.tx.vout = t₂.tx.vout) ∧
      (hashMode h.toNat = sigHashSingle → t₁.tx.vout[t₁.nIn]? = t₂.tx.vout[t₂.nIn]?) := by
    by_cases hsingle : hashMode h.toNat = sigHashSingle
    · simp [message, hsingle, houtput]
    by_cases hnone : hashMode h.toNat = sigHashNone
    · simp [message, hnone, sigHashNone, sigHashSingle]
    · simp [message, hsingle, hnone, Midstates.compute, houtputs]
  constructor
  · intro heq
    obtain ⟨hversion, hprev, hseq, hprevout, hcode, hamount, hsequence, hout, hlock, -⟩ :=
      WitnessMessage.ext_iff.mp heq
    exact ⟨hversion, hlock, hprevout, hsequence, hcode, hamount,
      fun hc => hprevouts.mp (ite_null_eq_iff.mp hprev hc),
      fun hc => hsequences.mp (ite_null_eq_iff.mp hseq hc), (hmode.mp hout).1, (hmode.mp hout).2⟩
  · intro hs
    exact WitnessMessage.ext hs.version
      (ite_null_eq_iff.mpr fun hc => hprevouts.mpr (hs.prevouts hc))
      (ite_null_eq_iff.mpr fun hc => hsequences.mpr (hs.sequences hc)) hs.prevout
        hs.scriptCode hs.amount
      hs.nSequence (hmode.mpr ⟨hs.outputs, hs.output⟩) hs.nLockTime rfl

/-- Two witness signature hashes are equal exactly if the hash types are and everything agrees that
they cover, and a cache that was initialised from the transaction changes no hash. -/
theorem witnessSighash_commits (t₁ t₂ : TxInput) (code₁ code₂ : CScript) (h₁ h₂ : UInt32)
    (ht₁ : t₁.Representable code₁) (ht₂ : t₂.Representable code₂)
    (hP : HashesApart P (t₁.hashed P code₁ h₁ ++ t₂.hashed P code₂ h₂)) :
    (t₁.sighash P code₁ h₁.toNat .witnessV0 = t₂.sighash P code₂ h₂.toNat .witnessV0 ↔
      h₁ = h₂ ∧ SignsSame h₁.toNat t₁ t₂ code₁ code₂) ∧
    ∀ (t : TxInput) (scriptCode : CScript) (nHashType : UInt32) (force : Bool),
      t.cachedSighash P none scriptCode nHashType = t.sighash P scriptCode
        nHashType.toNat .witnessV0 ∧
      t.cachedSighash P (some (.init P t.tx force)) scriptCode nHashType =
        t.sighash P scriptCode nHashType.toNat .witnessV0 := by
  obtain ⟨hspent₁, hvout₁⟩ := forall_mem_cons.mp ht₁
  obtain ⟨hspent₂, hvout₂⟩ := forall_mem_cons.mp ht₂
  refine ⟨?_, fun t scriptCode nHashType force => ?_⟩
  · rw [sighash_eq, sighash_eq]
    constructor
    · intro heq
      have hbytes := hP.inj _ (mem_append_left _ mem_cons_self) _
        (mem_append_right _ mem_cons_self) heq
      have hmessage := WitnessMessage.serialize_inj hbytes hspent₁ hspent₂
      obtain rfl := congrArg WitnessMessage.nHashType hmessage
      exact ⟨rfl, (message_eq_iff hP hvout₁ hvout₂).mp hmessage⟩
    · rintro ⟨rfl, hsame⟩
      exact congrArg (fun m => hash P m.serialize) ((message_eq_iff hP hvout₁ hvout₂).mpr hsame)
  · rw [sighash_eq]
    refine ⟨rfl, ?_⟩
    rw [cachedSighash, Midstates.ofCache_init]
    rfl

/-- The only input of a transaction with two outputs. -/
def twoOutputs (nValue : CAmount) : TxInput where
  tx := ⟨[⟨⟨.fill 32 7, 0⟩, [], CTxIn.sequenceFinal, []⟩], [⟨512, []⟩, ⟨nValue, []⟩], 2, 0⟩
  nIn := 0
  amount := 1000
  inRange := Nat.one_pos

theorem witnessSighash_commits_single :
    (twoOutputs 1).sighash .repeating [] 3 .witnessV0 = (twoOutputs 2).sighash .repeating
      [] 3 .witnessV0 := by
  have hP : HashesApart .repeating
      ((twoOutputs 1).hashed .repeating [] 3 ++ (twoOutputs 2).hashed .repeating [] 3) :=
    ⟨by decide +kernel, by decide +kernel⟩
  refine (witnessSighash_commits _ _ [] [] 3 3 ?_ ?_ hP).1.mpr ⟨rfl, ?_⟩
  · simp [Representable, CTxOut.Representable, twoOutputs]
  · simp [Representable, CTxOut.Representable, twoOutputs]
  · constructor <;> decide

end Tessera.Tx
