import Tessera.Script.Checkers
import Tessera.Tx.MultisigSigs

/-!
# Multisig outputs and their signers

An output that pays to the witness script hash of a multisig script, the witness that a set of
signatures makes for it, and the inputs that signers pass on to each other.
-/

namespace Tessera.Tx

open Lib Script List SignatureData

variable {P : Primitives}

/-! ### The output being spent -/

/-- An output that pays to the witness script hash of a multisig script. -/
structure MultisigOutput (P : Primitives) where
  required : Nat
  keys : List CPubKey
  required_pos : 1 ≤ required
  required_le : required ≤ keys.length
  keys_valid : ∀ key ∈ keys, key.isValid = true
  size_le : (getScriptForMultisig required keys).length ≤ maxScriptSize
  /-- The witness program is not zero, so that it counts as true on the stack. -/
  program_true : castToBool (hash P (getScriptForMultisig required keys)).data = true

namespace MultisigOutput

variable (out : MultisigOutput P)

def script : CScript := getScriptForMultisig out.required out.keys

def scriptPubKey : CScript := witnessProgramScript (hash P out.script).data

/-- The limit on the size of a script leaves room for seven keys. -/
theorem keys_length_le : out.keys.length ≤ 16 := by
  have hlen := getScriptForMultisig_length (m := out.required) out.keys_valid
  have hsize := out.size_le
  have hmax : maxScriptSize = 10000 := rfl
  omega

private theorem script_ne_nil : out.script ≠ [] := by
  have hlen := getScriptForMultisig_length (m := out.required) out.keys_valid
  have hpos := out.required_pos
  have hle := out.required_le
  intro hnil
  rw [script] at hnil
  simp only [hnil, length_nil] at hlen
  omega

theorem solver_script : solver out.script = .multisig out.required (out.keys.map CPubKey.vch) :=
  solver_getScriptForMultisig out.required_pos out.required_le out.keys_length_le out.keys_valid

theorem solver_scriptPubKey : solver out.scriptPubKey = .witnessV0Scripthash (hash P out.script) :=
  solver_scriptHashProgram (hash P out.script)

/-- The values that stand for signatures in a witness made from a set: the first signatures in the
order of the keys, and empty values for those that are missing. -/
def values (g : SigsByKey) : List Bytes :=
  ((collect g out.keys).take out.required).map Prod.snd ++
    List.replicate (out.required - (collect g out.keys).length) []

/-- The witness made from a set of signatures. -/
def witness (g : SigsByKey) : CScriptWitness := [] :: (out.values g ++ [out.script])

private theorem values_length (g : SigsByKey) : (out.values g).length = out.required := by
  simp only [values, length_append, length_map, length_take, length_replicate]
  omega

variable {input t : TxInput} {g : SigsByKey} {σ : Type}

private theorem values_size (hg : Sound P input out.script out.keys g) :
    ∀ value ∈ out.values g, value.length ≤ maxWitnessItem := by
  intro value hvalue
  rcases mem_append.mp hvalue with hsig | hpad
  · obtain ⟨p, hp, rfl⟩ := mem_map.mp hsig
    obtain ⟨hkey, hsome⟩ := mem_collect.mp (mem_of_mem_take hp)
    exact (hg p.1 hkey p.2 hsome).size
  · rw [eq_of_mem_replicate hpad]
    exact Nat.zero_le _

/-- Verification of a witness made from a set, up to the check of its signatures. -/
theorem verifyScript_witness (checker : Checker σ) (hg : Sound P input out.script out.keys g) :
    ∃ e, verifyScript P standardScriptVerifyFlags checker [] out.scriptPubKey (out.witness g) = (do
        let success ← checkMultisigLoop checker .witnessV0 out.script (out.values g).reverse
          (out.keys.map CPubKey.vch).reverse
        if success then pure () else throw e) := by
  have hlen : (hash P out.script).data.length = witnessV0ScriptHashSize :=
    (hash P out.script).size_eq
  -- a failed check ends in `NULLFAIL`, or in a false value on the stack if no signature was given
  obtain ⟨e, he⟩ : ∃ e, (do
      let st ← Comp.ofExcept (multisigEnd standardScriptVerifyFlags (out.values g).reverse [] false)
      Comp.require (st.length == 1) .cleanStack
      requireTrue st : Comp ScriptError σ Unit) = throw e := by
    unfold multisigEnd
    split
    · exact ⟨_, rfl⟩
    · exact ⟨.evalFalse, rfl⟩
  refine ⟨e, ?_⟩
  rw [scriptPubKey, witness, verifyScript_witnessProgram (.inr hlen) out.program_true,
    verifyWitnessProgram, if_pos hlen, ← cons_append, getLast?_concat]
  dsimp only
  rw [Comp.require_eq_pure (by simp), pure_bind, dropLast_concat, executeWitnessScript,
    Comp.require_eq_pure (by simpa using out.values_size hg), pure_bind, reverse_cons, script,
    evalScript_getScriptForMultisig out.required_pos out.required_le out.size_le out.keys_length_le
      out.keys_valid (by simpa using out.values_length g), bind_assoc]
  refine bind_congr fun success => ?_
  cases success with
  | true => rfl
  | false => exact he

/-- A witness with enough signatures passes. -/
theorem verifies_witness (hg : Sound P input out.script out.keys g)
    (henough : out.required ≤ (collect g out.keys).length) :
    verifies P input [] out.scriptPubKey (out.witness g) := by
  have hvalues : (out.values g).reverse = ((collect g out.keys).take out.required).reverse.map
      Prod.snd := by
    rw [values, Nat.sub_eq_zero_of_le henough, replicate_zero, append_nil, map_reverse]
  have hsub : (((collect g out.keys).take out.required).reverse.map Prod.fst).Sublist
      out.keys.reverse := by
    rw [map_reverse, reverse_sublist]
    exact ((take_sublist _ _).map Prod.fst).trans (collect_keys_sublist g out.keys)
  have hloop : checkMultisigLoop (input.checker P) .witnessV0 out.script (out.values g).reverse
      (out.keys.map CPubKey.vch).reverse = pure true := by
    rw [hvalues, ← map_reverse]
    refine checkMultisigLoop_of_sublist hsub fun p hp => ?_
    obtain ⟨hkey, hsome⟩ := mem_collect.mp (mem_of_mem_take (mem_reverse.mp hp))
    exact ((hg p.1 hkey p.2 hsome).checkSig_iff p.1 hkey).mpr rfl
  obtain ⟨e, he⟩ := out.verifyScript_witness (input.checker P) hg
  rw [verifies, he, hloop]
  rfl

/-! ### Inputs between rounds -/

/-- The input `t` signs and spends the same as `input`. -/
structure SameSpend (input t : TxInput) : Prop where
  sighash : ∀ nHashType,
    t.sighash P out.script nHashType .witnessV0 = input.sighash P out.script nHashType .witnessV0
  amount : t.amount = input.amount

variable {out}

section

variable (h : out.SameSpend input t)

include h

theorem SameSpend.checkSig (sig pubkey : Bytes) : t.checkSig P sig pubkey out.script .witnessV0 =
      input.checkSig P sig pubkey out.script .witnessV0 := by
  simp [TxInput.checkSig, h.sighash]

theorem SameSpend.update (d : SignatureData) : out.SameSpend input (t.update d) where
  sighash nHashType := by
    rw [← TxInput.sighash_unsigned, t.update_unsigned d, TxInput.sighash_unsigned, h.sighash]
  amount := h.amount

theorem SameSpend.sound (hg : Sound P input out.script out.keys g) :
    Sound P t out.script out.keys g := by
  intro key hkey sig hsig
  obtain ⟨hsize, hcheck, hid⟩ := hg key hkey sig hsig
  refine ⟨hsize, fun other hother => ?_, hid⟩
  rw [h.checkSig]
  exact hcheck other hother

end

/-- An input that carries the signatures of a set, too few to be complete. Before the first round
there is no witness at all. -/
structure Pending (out : MultisigOutput P) (input : TxInput) (g : SigsByKey)
    (t : TxInput) : Prop where
  same : out.SameSpend input t
  sound : Sound P input out.script out.keys g
  scriptSig : t.txin.scriptSig = []
  witness : t.txin.scriptWitness = out.witness g ∨ t.txin.scriptWitness = [] ∧
    ∀ key ∈ out.keys, g key = none
  few : (collect g out.keys).length < out.required

private theorem dataFromTransaction_error (hscriptSig : t.txin.scriptSig = [])
    {e : ScriptError} {sigs : CKeyID → Option SigPair}
    (herror : (verifyScript P standardScriptVerifyFlags (extractorChecker P t) [] out.scriptPubKey
      t.txin.scriptWitness).exec (fun _ => none) = (.error e, sigs)) :
    dataFromTransaction P t out.scriptPubKey = some (extractWitness P t out.scriptPubKey []
      { SignatureData.empty with scriptWitness := t.txin.scriptWitness, signatures := sigs }) := by
  simp only [dataFromTransaction, hscriptSig, herror, out.solver_scriptPubKey]
  rfl

/-- The signatures of a pending input are recovered, and the input is seen to be incomplete. -/
theorem Pending.recover (h : out.Pending input g t) :
    ∃ d, dataFromTransaction P t out.scriptPubKey = some d ∧ d.complete = false ∧
      d.signatures = sigMap P g out.keys := by
  have hsound := h.same.sound h.sound
  have hfew := h.few
  rcases h.witness with hwitness | ⟨hwitness, hnone⟩
  · -- the check fails on the empty value on top, and the signatures are matched one by one
    obtain ⟨n, hn⟩ : ∃ n, out.required - (collect g out.keys).length = n + 1 :=
      Nat.exists_eq_succ_of_ne_zero (by omega)
    obtain ⟨sigs, hpadded⟩ : ∃ sigs, (out.values g).reverse = [] :: sigs := by
      rw [values, hn, replicate_succ', ← append_assoc, reverse_append]
      exact ⟨_, rfl⟩
    obtain ⟨e, he⟩ := out.verifyScript_witness (extractorChecker P t) hsound
    rw [hpadded, checkMultisigLoop_pad fun _ _ => rfl, ← hwitness] at he
    have hvalues : out.values g = (collect g out.keys).map Prod.snd ++
        replicate (out.required - (collect g out.keys).length) [] := by
      rw [values, take_of_length_le (by omega)]
    have hlast : (out.witness g).getLast? = some out.script := by
      rw [MultisigOutput.witness, ← cons_append, getLast?_concat]
    have hinit : (out.witness g).dropLast = [] :: out.values g := by
      rw [MultisigOutput.witness, ← cons_append, dropLast_concat]
    have hne := out.script_ne_nil
    refine ⟨_, dataFromTransaction_error h.scriptSig (by rw [he]; rfl), ?_, ?_⟩
    · simp [extractWitness, out.solver_scriptPubKey, out.solver_script, hwitness, hlast, hne, empty]
    have hmatch := matchKeys_values out.keys_valid hsound
      (out.required - (collect g out.keys).length)
    rw [← hvalues] at hmatch
    simpa [extractWitness, out.solver_scriptPubKey, out.solver_script, hwitness, hlast, hne, hinit]
      using hmatch
  · have he : (verifyScript P standardScriptVerifyFlags (extractorChecker P t) [] out.scriptPubKey
        t.txin.scriptWitness).exec (fun _ => none) =
          (.error .witnessProgramWitnessEmpty, fun _ => none) := by
      have hlen : (hash P out.script).data.length = witnessV0ScriptHashSize :=
        (hash P out.script).size_eq
      rw [hwitness, scriptPubKey, verifyScript_witnessProgram (.inr hlen) out.program_true,
        verifyWitnessProgram, if_pos hlen]
      rfl
    refine ⟨_, dataFromTransaction_error h.scriptSig he, ?_, ?_⟩
    · simp [extractWitness, out.solver_scriptPubKey, empty, hwitness]
    · have hcollect : collect g out.keys = [] := by
        simpa [collect] using hnone
      simp [extractWitness, out.solver_scriptPubKey, hwitness, sigMap, hcollect]

/-- An input that verifies is seen to be complete. -/
theorem recover_complete (hscriptSig : t.txin.scriptSig = [])
    (hok : verifies P t [] out.scriptPubKey t.txin.scriptWitness) :
    ∃ d, dataFromTransaction P t out.scriptPubKey = some d ∧ d.complete ∧
      d.scriptSig = t.txin.scriptSig ∧ d.scriptWitness = t.txin.scriptWitness := by
  have hagree : ∀ sv, (extractorChecker P t).Agree (fun _ _ => True) (t.checker P) sv := by
    intro sv
    refine ⟨fun sig pubkey code m s _ => ⟨?_, trivial⟩, rfl, rfl⟩
    simp only [extractorChecker]
    split
    next h => exact h.symm
    next h => exact (Bool.not_eq_true _ ▸ h).symm
  -- noting signatures does not change the outcome
  have hrelated : Comp.Related (fun _ _ => True)
      (verifyScript P standardScriptVerifyFlags (extractorChecker P t) [] out.scriptPubKey
        t.txin.scriptWitness)
      (verifyScript P standardScriptVerifyFlags (t.checker P) [] out.scriptPubKey
        t.txin.scriptWitness) :=
    verifyScript_related (hagree .base) (hagree .witnessV0) _ _ _
  have hsame := (hrelated (fun _ => none) () trivial).1
  rcases hext : (verifyScript P standardScriptVerifyFlags (extractorChecker P t) [] out.scriptPubKey
    t.txin.scriptWitness).exec (fun _ => none) with ⟨outcome, sigs⟩
  rw [hext] at hsame
  cases outcome with
  | error e =>
    rw [verifies, ← hsame] at hok
    cases hok
  | ok a =>
    refine ⟨{ empty with
      complete := true, scriptWitness := t.txin.scriptWitness, signatures := sigs }, ?_, rfl,
      hscriptSig.symm, rfl⟩
    simp only [dataFromTransaction, hscriptSig, hext]
    rfl

end MultisigOutput

/-! ### Signers -/

/-- A signer of the output: it knows the witness script and the secret keys of some of the public
keys. A signature made with one of them verifies under its own public key, and under no other key of
the script. -/
structure CoSigner (out : MultisigOutput P) where
  provider : SigningProvider
  nHashType : UInt8
  rnd : CKeyID → Uint256
  knows_script : provider.getCScript ((hash P out.script).first 20 (by decide)) = some out.script
  sign_verifies : ∀ key ∈ out.keys, ∀ k, provider.getKey (key.getID P) = some k → ∀ rnd msg,
    ∃ sig, k.sign P rnd msg = some sig ∧ ∀ other ∈ out.keys, other.verify P msg sig =
    true ↔ other = key

namespace CoSigner

variable {out : MultisigOutput P} (s : CoSigner out)

/-- Whether the signer has the secret key of a public key. -/
def knows (key : CPubKey) : Bool := (s.provider.getKey (key.getID P)).isSome

/-- The signature creator that the signer runs on an input. -/
def creator (t : TxInput) : SignatureCreator := ⟨t, s.nHashType.toNat, s.rnd⟩

/-- The signatures the signer can make for an input. -/
def sigs (t : TxInput) : SigsByKey := fun key =>
  (s.creator t).createSig P s.provider (key.getID P) out.script .witnessV0

variable {t : TxInput}

section

variable (hamount : moneyRange t.amount)

include hamount

theorem sigs_eq (key : CPubKey) : s.sigs t key = (s.provider.getKey (key.getID P)).bind fun k =>
      (k.sign P (s.rnd (key.getID P)) (t.sighash P out.script s.nHashType.toNat .witnessV0)).map
        (· ++ [s.nHashType]) := by
  cases hk : s.provider.getKey (key.getID P) with
  | none => simp [sigs, SignatureCreator.createSig, hk]
  | some k => simp [sigs, creator, SignatureCreator.createSig, hk, hamount]

theorem sigs_isSome {key : CPubKey} (hkey : key ∈ out.keys) : (s.sigs t key).isSome =
    s.knows key := by
  rw [sigs_eq s hamount, knows]
  cases hk : s.provider.getKey (key.getID P) with
  | none => rfl
  | some k =>
    obtain ⟨sig, hsig, -⟩ := s.sign_verifies key hkey k hk (s.rnd (key.getID P))
      (t.sighash P out.script s.nHashType.toNat .witnessV0)
    simp [hsig]

/-- What a signer makes belongs to the key it is made for. -/
theorem sigs_sound : Sound P t out.script out.keys (s.sigs t) := by
  intro key hkey sig hsig
  rw [sigs_eq s hamount, Option.bind_eq_some_iff] at hsig
  obtain ⟨k, hk, hsig⟩ := hsig
  obtain ⟨raw, hraw, rfl⟩ := Option.map_eq_some_iff.mp hsig
  obtain ⟨_, hraw', hverify⟩ := s.sign_verifies key hkey k hk _ _
  cases hraw'.symm.trans hraw
  refine ⟨?_, ?_, ?_⟩
  · have hlen := CKey.sign_length P hraw
    simp only [length_append, length_cons, hlen]
    decide
  · intro other hother
    have hvalid := out.keys_valid other hother
    simp only [TxInput.checkSig, getLast?_concat, dropLast_concat, CPubKey.set_vch hvalid, hvalid]
    exact hverify other hother
  · -- a key with the same identifier has the same secret key, hence the same signatures
    intro other hother hid
    obtain ⟨sig', hsig', hverify'⟩ := s.sign_verifies other hother k (hid ▸ hk)
      (s.rnd (key.getID P)) (t.sighash P out.script s.nHashType.toNat .witnessV0)
    cases hsig'.symm.trans hraw
    exact (hverify other hother).mp ((hverify' other hother).mpr rfl)

end

theorem sigs_congr {input : TxInput} (h : out.SameSpend input t) : s.sigs t = s.sigs input := by
  funext key
  simp [sigs, creator, SignatureCreator.createSig, h.sighash, h.amount]

end CoSigner

end Tessera.Tx
