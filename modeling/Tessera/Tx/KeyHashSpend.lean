import Tessera.Script.WitnessSpend
import Tessera.Tx.Sign
import Tessera.Tx.WitnessOnly

/-!
# Signing for a key hash

What `ProduceSignature` makes of an output that pays to the hash of one key, starting from nothing:
a witness program, the same program behind a script hash, or a legacy key hash script. The first two
complete exactly if the provider has the key, the amount is in range and the program is not zero.
The last one never does.
-/

namespace Tessera.Tx

open Lib Script List Option CPubKey SignatureData

variable {P : Primitives} {creator : SignatureCreator} {provider : SigningProvider}

/-- What a key signs verifies under its public key. -/
def SignaturesVerify (P : Primitives) : Prop :=
  ∀ seed rnd msg sig, (CKey.makeKeyFromSeed P seed).sign P rnd msg = some sig →
    (CKey.makeKeyFromSeed P seed).getPubKey.verify P msg sig = true

/-- The provider hands out keys made from seeds under the hashes of their public keys, and the
public keys of these. -/
structure HonestKeys (P : Primitives) (provider : SigningProvider) : Prop where
  getPubKey : ∀ id, provider.getPubKey id = (provider.getKey id).map CKey.getPubKey
  getID : ∀ id key, provider.getKey id = some key → key.getPubKey.getID P = id
  fromSeed : ∀ id key, provider.getKey id = some key → ∃ seed, key = .makeKeyFromSeed P seed

/-- What can be signed for the hash of a key: the provider has the key, the amount is one that
exists, and the hash is not zero as a number. -/
structure CanSpend (provider : SigningProvider) (amount : CAmount) (id : CKeyID) : Prop where
  key : (provider.getKey id).isSome = true
  amount : moneyRange amount = true
  program : castToBool id.data = true

variable {input : TxInput} {scriptSig scriptPubKey : CScript} {sig : Bytes}

private theorem verifies_iff {witness : CScriptWitness} : verifies P input scriptSig
      scriptPubKey witness ↔
      (verifyScript P standardScriptVerifyFlags (input.checker P) scriptSig scriptPubKey
        witness).Returns () () () := by
  unfold verifies Comp.Returns
  rcases (verifyScript P standardScriptVerifyFlags (input.checker P) scriptSig scriptPubKey
    witness).exec () with ⟨r, u⟩
  cases r with
  | ok u => simp
  | error e => simp

/-! ### The witness of a key hash -/

variable (creator) in
private theorem createSig_isSome_iff (h : HonestKeys P provider) (id : CKeyID) (code : CScript) :
    (creator.createSig P provider id code .witnessV0).isSome ↔
      (provider.getKey id).isSome ∧ moneyRange creator.input.amount := by
  cases hkey : provider.getKey id with
  | none => simp [SignatureCreator.createSig, hkey]
  | some key =>
    obtain ⟨seed, rfl⟩ := h.fromSeed id key hkey
    by_cases hmoney : moneyRange creator.input.amount
    · simp [SignatureCreator.createSig, hkey, hmoney, CKey.sign, CKey.makeKeyFromSeed]
    · simp [SignatureCreator.createSig, hkey, hmoney]

variable {id : CKeyID} {d : SignatureData}

private theorem checkSig_createSig (hP : SignaturesVerify P) (h : HonestKeys P provider)
    (htype : creator.nHashType < 256) {code : CScript} {key : CKey}
    (hkey : provider.getKey id = some key)
    (hsig : creator.createSig P provider id code .witnessV0 = some sig) :
    creator.input.checkSig P sig key.getPubKey.vch code .witnessV0 ∧ sig.length ≤
      maxWitnessItem := by
  obtain ⟨seed, rfl⟩ := h.fromSeed id key hkey
  simp only [SignatureCreator.createSig, hkey] at hsig
  split at hsig
  · cases hsig
  obtain ⟨raw, hraw, rfl⟩ := map_eq_some_iff.mp hsig
  have hvalid := CKey.makeKeyFromSeed_pubkey_isValid P seed
  have hbyte : (UInt8.ofNat creator.nHashType).toNat = creator.nHashType := by
    rw [UInt8.toNat_ofNat', Nat.mod_eq_of_lt (by simpa using htype)]
  constructor
  · simp only [TxInput.checkSig, getLast?_concat, dropLast_concat, CKey.getPubKey,
      set_vch hvalid, hvalid, hbyte]
    exact hP seed _ _ _ hraw
  · rw [length_append, CKey.sign_length P hraw, length_singleton]
    decide

private theorem verifyWitnessProgram_keyHash {pubkey : CPubKey}
    (hid : pubkey.getID P = id) (hvalid : pubkey.isValid) (hlen : sig.length ≤ maxWitnessItem)
    (hcheck : input.checkSig P sig pubkey.vch (payToPubkeyHashScript id.data) .witnessV0) :
    (verifyWitnessProgram P standardScriptVerifyFlags (input.checker P) [sig, pubkey.vch] 0
      id.data).Returns () () () := by
  have hpub : pubkey.vch.length ≤ maxWitnessItem := by
    rw [validSize_length (isValid_iff.mp hvalid)]
    decide
  have hchecksig : (evalChecksig standardScriptVerifyFlags (input.checker P) .witnessV0 sig
      pubkey.vch (payToPubkeyHashScript id.data)).Returns () true () := by
    simp only [evalChecksig, Comp.returns_bind_iff, Comp.returns_ofExcept_iff,
      Comp.returns_act_iff, Comp.returns_require_iff, Comp.returns_pure_iff]
    exact ⟨_, (), ⟨rfl, trivial⟩, true, (), ⟨hcheck, trivial⟩, (), (), ⟨rfl, trivial⟩, rfl, trivial⟩
  have hrun : (evalScript P standardScriptVerifyFlags (input.checker P) .witnessV0
      [pubkey.vch, sig] (payToPubkeyHashScript id.data)).Returns () [boolVch true] () := by
    refine (evalScript_payToPubkeyHashScript id.size_eq).mpr ?_
    exact ⟨pubkey.vch, sig, [], true, rfl,
      by simp [maxStackSize], congrArg Blob.data hid, hchecksig, rfl⟩
  have hsize : id.data.length = witnessV0KeyHashSize := id.size_eq
  rw [verifyWitnessProgram, if_pos rfl, if_neg (by rw [hsize]; decide), if_pos hsize]
  simp only [executeWitnessScript, Comp.returns_bind_iff, Comp.returns_require_iff]
  exact ⟨(), (), ⟨rfl, trivial⟩, (), (), ⟨by simp [hlen, hpub], trivial⟩, _, _, hrun, (), (),
    ⟨rfl, trivial⟩, by simp [requireTrue, boolVch, castToBool]⟩

variable (creator) in
private theorem signStep_keyHash (h : HonestKeys P provider) (id : CKeyID)
    (redeemScript : CScript) :
    let made := signStep P creator provider (payToPubkeyHashScript id.data) .witnessV0
      { empty with redeemScript }
    let made? := creator.createSig P provider id (payToPubkeyHashScript id.data) .witnessV0
    made.ok = made?.isSome ∧
      ∀ sig, made? = some sig → ∃ key, provider.getKey id = some key ∧ made.ret =
        [sig, key.getPubKey.vch] := by
  have hpub := h.getPubKey id
  cases hkey : provider.getKey id with
  | none =>
    have hsig : creator.createSig P provider id (payToPubkeyHashScript id.data)
        .witnessV0 = none := by
      simp only [SignatureCreator.createSig, hkey]
    simp [signStep, solver_payToPubkeyHashScript, getPubKey, empty, hpub, hkey, hsig]
  | some key =>
    have hid := h.getID id key hkey
    cases hsig : creator.createSig P provider id (payToPubkeyHashScript id.data) .witnessV0 <;>
      simp [signStep, solver_payToPubkeyHashScript, getPubKey, empty, hpub, hkey,
        createSig, hid, hsig]

/-! ### Scripts that come down to a key hash program -/

/-- A script that comes down to the program of a key hash, for `ProduceSignature` and for
`VerifyScript`: it is the program, or its script hash. -/
structure SpendsProgram (P : Primitives) (creator : SignatureCreator)
    (provider : SigningProvider) (id : CKeyID) (fromPubKey scriptSig : CScript) : Prop where
  redeem : ∃ redeemScript subscript, pushAll subscript.toList = scriptSig ∧
    produceRedeem P creator provider fromPubKey .empty =
      (⟨true, [id.data], { empty with redeemScript }⟩, witnessProgramScript id.data, subscript)
  verify : ∀ witness, verifyScript P standardScriptVerifyFlags (creator.input.checker P) scriptSig
    fromPubKey witness = (do
      requireTrue [id.data, []]
      verifyWitnessProgram P standardScriptVerifyFlags (creator.input.checker P) witness 0 id.data)

theorem spendsProgram_witness : SpendsProgram P creator provider id
    (witnessProgramScript id.data) [] where
  redeem := ⟨[], none, rfl, by simp only [produceRedeem, signStep, solver_keyHashProgram]; rfl⟩
  verify := verifyScript_witnessProgram_eq (.inl id.size_eq)

theorem spendsProgram_wrapped
    (hscript : provider.getCScript (hash160 P (witnessProgramScript id.data)) =
      some (witnessProgramScript id.data)) : SpendsProgram P creator provider id
      (payToScriptHashScript (hash160 P (witnessProgramScript id.data)).data)
      (pushData (witnessProgramScript id.data)) where
  redeem := by
    refine ⟨witnessProgramScript id.data, some (witnessProgramScript id.data), ?_, ?_⟩
    · have hcons : witnessProgramScript id.data = 0x00 :: 20 :: id.data := by
        simp [witnessProgramScript, pushData, appendDataSize, id.size_eq]
      simp [pushAll, hcons]
    · simp only [produceRedeem, signStep, solver_payToScriptHashScript, getCScript, hscript,
        solver_keyHashProgram]
      rfl
  verify := verifyScript_wrappedProgram_eq (.inl id.size_eq)

/-- The witness of a key hash: a signature with its type, and a public key. Both have a fixed size.
-/
structure KeyHashWitness (witness : CScriptWitness) : Prop where
  items : ∃ sig pubkey : Bytes, witness = [sig, pubkey] ∧ sig.length = 2421 ∧ pubkey.length = 1313

namespace SpendsProgram

variable {fromPubKey : CScript} (hspends : SpendsProgram P creator provider id fromPubKey scriptSig)
  (h : HonestKeys P provider)

include hspends h

private theorem produced :
    let made := produceSignature P creator provider fromPubKey .empty
    let made? := creator.createSig P provider id (payToPubkeyHashScript id.data) .witnessV0
    made.scriptSig = scriptSig ∧
      made.complete = (made?.isSome && verifies P creator.input scriptSig fromPubKey
        made.scriptWitness) ∧
      ∀ sig, made? = some sig → ∃ key, provider.getKey id = some key ∧
        made.scriptWitness = [sig, key.getPubKey.vch] := by
  obtain ⟨redeemScript, subscript, hsig, hredeem⟩ := hspends.redeem
  obtain ⟨hok, hret⟩ := signStep_keyHash creator h id redeemScript
  rw [produceSignature, if_neg (by simp [empty]), hredeem]
  simp only [produceWitness, solver_keyHashProgram, nil_append, hsig, hok]
  exact ⟨trivial, trivial, hret⟩

/-- It completes exactly if the key can spend. -/
theorem complete_iff (hP : SignaturesVerify P) (htype : creator.nHashType < 256) :
    (produceSignature P creator provider fromPubKey .empty).complete ↔
      CanSpend provider creator.input.amount id := by
  obtain ⟨-, hcomplete, hwitness⟩ := hspends.produced h
  rw [hcomplete, Bool.and_eq_true, verifies_iff, hspends.verify, createSig_isSome_iff creator h]
  constructor
  · -- a program that is zero as a number, negative zero included, cannot be spent
    rintro ⟨⟨hkey, hmoney⟩, hverify⟩
    obtain ⟨_, _, htrue, -⟩ := Comp.returns_bind_iff.mp hverify
    exact ⟨hkey, hmoney, (Comp.returns_require_iff.mp htrue).1⟩
  rintro ⟨hkey, hmoney, htrue⟩
  refine ⟨⟨hkey, hmoney⟩, ?_⟩
  obtain ⟨sig, hsig⟩ :=
    isSome_iff_exists.mp ((createSig_isSome_iff creator h id _).mpr ⟨hkey, hmoney⟩)
  obtain ⟨key, hget, hdata⟩ := hwitness sig hsig
  obtain ⟨hcheck, hlen⟩ := checkSig_createSig hP h htype hget hsig
  obtain ⟨seed, rfl⟩ := h.fromSeed id key hget
  rw [requireTrue_eq_pure htrue, hdata]
  exact verifyWitnessProgram_keyHash (h.getID id _ hget)
    (CKey.makeKeyFromSeed_pubkey_isValid P seed) hlen hcheck

/-- What a signed input carries. -/
theorem signed (hcomplete : (produceSignature P creator provider fromPubKey .empty).complete) :
    (produceSignature P creator provider fromPubKey .empty).scriptSig = scriptSig ∧
      KeyHashWitness (produceSignature P creator provider fromPubKey .empty).scriptWitness := by
  obtain ⟨hscriptSig, hmade, hwitness⟩ := hspends.produced h
  rw [hmade] at hcomplete
  obtain ⟨sig, hsig⟩ := isSome_iff_exists.mp (Bool.and_eq_true_iff.mp hcomplete).1
  obtain ⟨key, hkey, hdata⟩ := hwitness sig hsig
  obtain ⟨seed, rfl⟩ := h.fromSeed id key hkey
  refine ⟨hscriptSig, sig, _, hdata, ?_, validSize_length (isValid_iff.mp
    (CKey.makeKeyFromSeed_pubkey_isValid P seed))⟩
  simp only [SignatureCreator.createSig, hkey] at hsig
  split at hsig
  · cases hsig
  · obtain ⟨raw, hraw, rfl⟩ := map_eq_some_iff.mp hsig
    rw [length_append, CKey.sign_length P hraw, length_singleton]

end SpendsProgram

/-- What `ProduceSignature` calls complete verifies. -/
theorem verifies_of_complete {fromPubKey : CScript} (hd : d.complete = false)
    (h : (produceSignature P creator provider fromPubKey d).complete) :
    verifies P creator.input (produceSignature P creator provider fromPubKey d).scriptSig fromPubKey
      (produceSignature P creator provider fromPubKey d).scriptWitness := by
  rw [produceSignature, if_neg (by simp [hd])] at h ⊢
  exact (Bool.and_eq_true_iff.mp h).2

theorem not_complete_pubkeyHash (hP : FixedSizeSignatures P) (id : CKeyID) :
    (produceSignature P creator provider (payToPubkeyHashScript id.data) .empty).complete =
      false := by
  refine Bool.eq_false_iff.mpr fun h => ?_
  refine not_verifyScript_of_asksForSignature hP ?_ (verifies_iff.mp (verifies_of_complete rfl h))
  rw [asksForSignature, solver_payToPubkeyHashScript]

end Tessera.Tx
