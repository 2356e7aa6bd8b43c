import Tessera.Script.Solver
import Tessera.Tx.SigHash

/-!
# Signing

`script/sign.cpp`: the signer that solves a script and assembles the `scriptSig` and the witness of
an input, and the extractor that recovers partial signatures from an input. The maps of
`SignatureData` are only ever looked up and added to, so they are functions here.
-/

namespace Tessera.Tx

open Script

abbrev SigPair := CPubKey × Bytes

structure SignatureData where
  complete : Bool
  witness : Bool
  scriptSig : CScript
  redeemScript : CScript
  witnessScript : CScript
  scriptWitness : CScriptWitness
  signatures : CKeyID → Option SigPair
  miscPubkeys : CKeyID → Option CPubKey

/-- The default-constructed `SignatureData`. -/
def SignatureData.empty : SignatureData :=
  ⟨false, false, [], [], [], [], fun _ => none, fun _ => none⟩

/-- `std::map::emplace`, which keeps the entry of a key that has one. -/
def emplace {α : Type} (m : CKeyID → Option α) (k : CKeyID) (a : α) : CKeyID → Option α :=
  fun k' => if k' = k then some ((m k).getD a) else m k'

variable (P : Primitives)

/-! ### Creating signatures -/

/-- `MutableTransactionSignatureCreator`. The randomness with which it signs is drawn for each key.
-/
structure SignatureCreator where
  input : TxInput
  nHashType : Nat
  rnd : CKeyID → Uint256

def SignatureCreator.createSig (creator : SignatureCreator) (provider : SigningProvider)
    (address : CKeyID) (scriptCode : CScript) (sv : SigVersion) : Option Bytes :=
  match provider.getKey address with
  | none => none
  | some key =>
    if sv = .witnessV0 ∧ moneyRange creator.input.amount = false then none
    else
      let hash := creator.input.sighash P scriptCode creator.nHashType sv
      (key.sign P (creator.rnd address) hash).map (· ++ [UInt8.ofNat creator.nHashType])

namespace SignatureData

variable (provider : SigningProvider)

def getCScript (d : SignatureData) (id : CScriptID) : Option CScript :=
  match provider.getCScript id with
  | some script => some script
  | none =>
    if hash160 P d.redeemScript = id ∧ d.redeemScript ≠ [] then some d.redeemScript
    else if hash160 P d.witnessScript = id ∧ d.witnessScript ≠ [] then some d.witnessScript
    else none

def getPubKey (d : SignatureData) (address : CKeyID) : Option CPubKey :=
  match d.signatures address with
  | some pair => some pair.1
  | none =>
    match d.miscPubkeys address with
    | some pubkey => some pubkey
    | none => provider.getPubKey address

/-- `CreateSig`: reuse the signature of a key if there is one. -/
def createSig (creator : SignatureCreator) (provider : SigningProvider) (d : SignatureData)
    (pubkey : CPubKey) (scriptCode : CScript) (sv : SigVersion) : Option Bytes × SignatureData :=
  let keyid := pubkey.getID P
  match d.signatures keyid with
  | some pair => (some pair.2, d)
  | none =>
    let d := { d with miscPubkeys := emplace d.miscPubkeys keyid pubkey }
    match creator.createSig P provider keyid scriptCode sv with
    | some sig => (some sig, { d with signatures := emplace d.signatures keyid (pubkey, sig) })
    | none => (none, d)

end SignatureData

/-! ### Solving a script -/

/-- The loop of `SignStep` over the keys of a multisig script. A key is only tried while signatures
are missing. -/
def signMultisigLoop (creator : SignatureCreator) (provider : SigningProvider) (required : Nat)
    (script : CScript) (sv : SigVersion) :
    List Bytes → List Bytes → SignatureData → List Bytes × SignatureData
  | [], ret, d => (ret, d)
  | key :: keys, ret, d =>
    if ret.length < required + 1 then
      match d.createSig P creator provider (.set key) script sv with
      | (some sig, d') => signMultisigLoop creator provider required script sv keys (ret ++
          [sig]) d'
      | (none, d') => signMultisigLoop creator provider required script sv keys ret d'
    else signMultisigLoop creator provider required script sv keys ret d

/-- What `SignStep` returns: whether it solved the script, the values it found, and the data with
the signatures it made. -/
structure SignStepResult where
  ok : Bool
  ret : List Bytes
  data : SignatureData

def signStep (creator : SignatureCreator) (provider : SigningProvider) (script : CScript)
    (sv : SigVersion) (d : SignatureData) : SignStepResult :=
  match solver script with
  | .nonstandard | .nullData | .witnessUnknown _ _ => ⟨false, [], d⟩
  | .anchor => ⟨true, [], d⟩
  | .pubkey pubkey =>
    match d.createSig P creator provider (.set pubkey) script sv with
    | (some sig, d') => ⟨true, [sig], d'⟩
    | (none, d') => ⟨false, [], d'⟩
  | .pubkeyhash hash =>
    match d.getPubKey provider hash with
    | none => ⟨false, [], d⟩
    | some pubkey =>
      match d.createSig P creator provider pubkey script sv with
      | (some sig, d') => ⟨true, [sig, pubkey.vch], d'⟩
      | (none, d') => ⟨false, [], d'⟩
  | .scripthash hash =>
    match d.getCScript P provider hash with
    | some script => ⟨true, [script], d⟩
    | none => ⟨false, [], d⟩
  | .multisig required keys =>
    -- the empty value is the extra argument of the opcode
    let r := signMultisigLoop P creator provider required script sv keys [[]] d
    ⟨r.1.length == required + 1, r.1 ++ List.replicate (required + 1 - r.1.length) [], r.2⟩
  | .witnessV0Keyhash hash => ⟨true, [hash.data], d⟩
  | .witnessV0Scripthash hash =>
    match d.getCScript P provider (hash.first 20 Blob.size160_le) with
    | some script => ⟨true, [script], d⟩
    | none => ⟨false, [], d⟩

def pushAll (values : List Bytes) : CScript :=
  values.flatMap fun v =>
    match v with
    | [] => [0x00]
    | [b] => if 1 ≤ b ∧ b ≤ 16 then [encodeOpN b.toNat] else if b = 0x81 then [0x4f] else pushData v
    | _ => pushData v

/-! ### Producing a signature -/

variable (creator : SignatureCreator) (provider : SigningProvider)

/-- The redeem script stage of `ProduceSignature`, with the subscript if there is one. -/
def produceRedeem (fromPubKey : CScript)
    (d : SignatureData) : SignStepResult × CScript × Option CScript :=
  let r := signStep P creator provider fromPubKey .base d
  match r.ok, solver fromPubKey, r.ret with
  | true, .scripthash _, subscript :: _ =>
    let r' := signStep P creator provider subscript .base { r.data with redeemScript := subscript }
    let notNested := match solver subscript with
      | .scripthash _ => false
      | _ => true
    ({ r' with ok := r'.ok && notNested }, subscript, some subscript)
  | _, _, _ => (r, fromPubKey, none)

/-- The witness stage of `ProduceSignature`, for the script that the values solve. -/
def produceWitness (script : CScript)
    (r : SignStepResult) : SignStepResult :=
  match r.ok, solver script, r.ret with
  | true, .witnessV0Keyhash _, hash :: _ =>
    let r' := signStep P creator provider (payToPubkeyHashScript hash) .witnessV0 r.data
    ⟨r'.ok, [], { r'.data with scriptWitness := r'.ret, witness := true }⟩
  | true, .witnessV0Scripthash _, witnessScript :: _ =>
    let r' := signStep P creator provider witnessScript .witnessV0
      { r.data with witnessScript := witnessScript }
    let notNested := match solver witnessScript with
      | .scripthash _ | .witnessV0Scripthash _ | .witnessV0Keyhash _ => false
      | _ => true
    ⟨r'.ok && notNested, [],
      { r'.data with scriptWitness := r'.ret ++ [witnessScript], witness := true }⟩
  | true, .witnessUnknown _ _, _ => { r with data := { r.data with witness := true } }
  | _, _, _ => r

/-- Whether `VerifyScript` accepts with the standard flags. -/
def verifies (input : TxInput) (scriptSig scriptPubKey : CScript)
    (witness : CScriptWitness) : Bool :=
  match ((verifyScript P standardScriptVerifyFlags (input.checker P) scriptSig scriptPubKey
    witness).exec ()).1 with
  | .ok _ => true
  | .error _ => false

/-- `ProduceSignature`; the result is the `complete` field of the data. -/
def produceSignature (creator : SignatureCreator) (provider : SigningProvider)
    (fromPubKey : CScript) (d : SignatureData) : SignatureData :=
  if d.complete then d
  else
    let (r, script, subscript) := produceRedeem P creator provider fromPubKey d
    let r := produceWitness P creator provider script r
    let result := r.ret ++ subscript.toList
    let d := { r.data with
      scriptWitness := if r.data.witness then r.data.scriptWitness else []
      scriptSig := pushAll result }
    { d with
      complete := r.ok && verifies P creator.input d.scriptSig fromPubKey d.scriptWitness }

/-! ### Recovering signatures from an input -/

/-- `SignatureExtractorChecker`, which notes every signature that verifies. -/
def extractorChecker (input : TxInput) : Checker (CKeyID → Option SigPair) where
  checkSig sig pubkey scriptCode sv m :=
    if input.checkSig P sig pubkey scriptCode sv then
      (true, emplace m ((CPubKey.set pubkey).getID P) (.set pubkey, sig))
    else (false, m)
  checkLockTime := input.checkLockTime
  checkSequence := input.checkSequence

/-- `BaseSignatureChecker`, which accepts nothing. -/
def baseChecker : Checker Unit := ⟨fun _ _ _ _ s => (false, s), fun _ => false, fun _ => false⟩

/-- Look for the key of a signature among the keys that are left. A key that has a signature already
counts as found. The result is what is left behind that key. -/
def matchKey (input : TxInput) (script : CScript) (sv : SigVersion) (sig : Bytes) :
    List Bytes → (CKeyID → Option SigPair) → Option (List Bytes) × (CKeyID → Option SigPair)
  | [], m => (none, m)
  | key :: keys, m =>
    if (m ((CPubKey.set key).getID P)).isSome then (some keys, m)
    else
      match (extractorChecker P input).checkSig sig key script sv m with
      | (true, m') => (some keys, m')
      | (false, m') => matchKey input script sv sig keys m'

/-- The loop of `DataFromTransaction` that matches signatures to keys. -/
def matchKeys (input : TxInput) (script : CScript) (sv : SigVersion) :
    List Bytes → List Bytes → (CKeyID → Option SigPair) → (CKeyID → Option SigPair)
  | [], _, m => m
  | sig :: sigs, keys, m =>
    match matchKey P input script sv sig keys m with
    | (some rest, m') => matchKeys input script sv sigs rest m'
    | (none, m') => matchKeys input script sv sigs keys m'

variable (input : TxInput)

/-- The part of `DataFromTransaction` after the redeem script, on the stacks that are left, bottom
element first. -/
def extractWitness (script : CScript) (stack : List Bytes) (d : SignatureData) : SignatureData :=
  let matchMultisig (script : CScript) (sv : SigVersion) (stack : List Bytes) (d : SignatureData) :=
    match solver script with
    | .multisig _ keys =>
      { d with signatures := matchKeys P input script sv stack keys d.signatures }
    | _ => d
  match solver script, d.scriptWitness.getLast? with
  | .witnessV0Scripthash _, some witnessScript =>
    if witnessScript ≠ [] then
      matchMultisig witnessScript .witnessV0 d.scriptWitness.dropLast
        { d with witnessScript := witnessScript }
    else matchMultisig script .base stack d
  | _, _ => matchMultisig script .base stack d

/-- `DataFromTransaction`. None stands for an input whose `scriptSig` does not run to its end: there
the source goes on with the stack as the failed instruction left it, which is not modelled. -/
def dataFromTransaction (scriptPubKey : CScript) : Option SignatureData :=
  let scriptSig := input.txin.scriptSig
  let scriptWitness := input.txin.scriptWitness
  match ((evalScript P ∅ baseChecker .base [] scriptSig).exec ()).1 with
  | .error _ => none
  | .ok st =>
    let (outcome, signatures) :=
      (verifyScript P standardScriptVerifyFlags (extractorChecker P input)
      scriptSig scriptPubKey scriptWitness).exec fun _ => none
    let d := { SignatureData.empty with scriptSig, scriptWitness, signatures }
    match outcome with
    | .ok _ => some { d with complete := true }
    | .error _ =>
      -- the stack is listed from its top here
      match solver scriptPubKey, st with
      | .scripthash _, redeem :: rest =>
        if redeem ≠ [] then
          some (extractWitness P input redeem rest.reverse { d with redeemScript := redeem })
        else some (extractWitness P input scriptPubKey st.reverse d)
      | _, _ => some (extractWitness P input scriptPubKey st.reverse d)

/-! ### Signing an input -/

def TxInput.update (d : SignatureData) : TxInput :=
  { input with
    tx := { input.tx with
      vin := input.tx.vin.set input.nIn
        { input.txin with scriptSig := d.scriptSig, scriptWitness := d.scriptWitness } }
    inRange := by simpa using input.inRange }

/-- `SignSignature`: whether the input is complete, with the signed input. -/
def signSignature (provider : SigningProvider) (fromPubKey : CScript) (input : TxInput)
    (nHashType : Nat) (rnd : CKeyID → Uint256) (d : SignatureData) : Bool × TxInput :=
  let d := produceSignature P ⟨input, nHashType, rnd⟩ provider fromPubKey d
  (d.complete, input.update d)

@[simp] theorem TxInput.update_txin (input : TxInput) (d : SignatureData) : (input.update d).txin =
      { input.txin with scriptSig := d.scriptSig, scriptWitness := d.scriptWitness } := by
  simp [update, txin]

/-- Signing an input only fills in what signatures do not cover. -/
theorem TxInput.update_tx_unsigned (input : TxInput) (d : SignatureData) :
    (input.update d).tx.unsigned = input.tx.unsigned := by
  have hlen : input.nIn < (input.tx.vin.map CTxIn.unsigned).length := by simpa using input.inRange
  have hself : (input.tx.vin.map CTxIn.unsigned).set input.nIn input.txin.unsigned =
      input.tx.vin.map CTxIn.unsigned := by
    have hget : (input.tx.vin.map CTxIn.unsigned)[input.nIn] = input.txin.unsigned := by
      simp [txin]
    rw [← hget, List.set_getElem_self]
  simp only [CTransaction.unsigned, update, List.map_set]
  congr 1

theorem TxInput.update_unsigned (input : TxInput) (d : SignatureData) :
    (input.update d).unsigned = input.unsigned := by
  simp only [unsigned, mk.injEq]
  exact ⟨input.update_tx_unsigned d, rfl, rfl⟩

end Tessera.Tx
