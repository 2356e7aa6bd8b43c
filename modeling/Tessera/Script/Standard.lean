import Tessera.Script.WitnessSpend

/-!
# Standard scripts and their destinations

`ExtractDestination` finds the destination for which `GetScriptForDestination` built a script,
except where another destination has the same script: a key that is not valid, the anchor as an
unknown witness program, a standard script kept as no destination, and versions and programs that no
script has.
-/

namespace Tessera.Script

variable {s : CScript} {dest : CTxDestination}

/-- The address that `ExtractDestination` sets, also where it returns false. -/
def extractedAddress (s : CScript) : CTxDestination :=
  match solver s with
  | .pubkey pubkey => if (CPubKey.set pubkey).isValid then .pubKey (.set
      pubkey) else .noDestination s
  | _ => (extractDestination s).getD (.noDestination s)

/-- The destinations that are found again in their scripts. -/
def Recognized : CTxDestination → Prop
  | .noDestination s => extractDestination s = none ∧ ∀ pubkey, solver s ≠ .pubkey pubkey
  | .pubKey pubkey => pubkey.isValid = true
  | .witnessUnknown version program => (1 ≤ version ∧ version ≤ 16) ∧
      (2 ≤ program.length ∧ program.length ≤ 40) ∧ ¬ (version = 1 ∧ program = anchorBytes)
  | _ => True

private theorem extractedAddress_of_eq_some (h : extractDestination s = some dest) :
    extractedAddress s = dest := by
  unfold extractedAddress
  split
  next hs =>
    rw [extractDestination, hs] at h
    cases h
  · rw [h]
    rfl

private theorem recognized_extractedAddress (s : CScript) : Recognized (extractedAddress s) := by
  have hmatch := solver_matches s
  unfold extractedAddress extractDestination
  cases hs : solver s with
  | pubkey pubkey =>
    rw [hs] at hmatch
    obtain ⟨_, -, -, hvalid⟩ := exists_instr_of_matchPayToPubkey hmatch
    have hset : (CPubKey.set pubkey).isValid := by
      rwa [CPubKey.isValid_iff, CPubKey.set_of_validSize hvalid]
    simp [hset, Recognized]
  | witnessUnknown version program =>
    rw [hs] at hmatch
    obtain ⟨hversion, hanchor, hprog⟩ := hmatch
    obtain ⟨⟨hle, hlen⟩, rfl⟩ := isWitnessProgram_eq_some_iff.mp hprog
    refine ⟨⟨pos_of_ne_zero hversion, hle⟩, hlen, ?_⟩
    rintro ⟨rfl, rfl⟩
    exact absurd hanchor (by decide)
  | multisig | nullData | nonstandard => exact ⟨by rw [extractDestination, hs], by simp [hs]⟩
  | _ => trivial

private theorem extractedAddress_getScriptForDestination (h : Recognized dest) :
    extractedAddress (getScriptForDestination dest) = dest := by
  cases dest with
  | noDestination s =>
    rw [getScriptForDestination, extractedAddress]
    split
    next pubkey hs => exact absurd hs (h.2 pubkey)
    · rw [h.1]
      rfl
  | pubKey pubkey =>
    rw [Recognized] at h
    simp [extractedAddress, solver_pubkey h, CPubKey.set_vch h, if_pos h]
  | pkHash hash =>
    exact extractedAddress_of_eq_some (s := payToPubkeyHashScript hash.data)
      (by rw [extractDestination, solver_payToPubkeyHashScript])
  | scriptHash hash =>
    exact extractedAddress_of_eq_some (s := payToScriptHashScript hash.data)
      (by rw [extractDestination, solver_payToScriptHashScript])
  | witnessV0ScriptHash hash =>
    exact extractedAddress_of_eq_some (s := witnessProgramScript hash.data)
      (by rw [extractDestination, solver_scriptHashProgram])
  | witnessV0KeyHash hash =>
    exact extractedAddress_of_eq_some (s := witnessProgramScript hash.data)
      (by rw [extractDestination, solver_keyHashProgram])
  | payToAnchor => rfl
  | witnessUnknown version program =>
    obtain ⟨⟨hpos, hversion⟩, hlen, hno⟩ := h
    generalize hs : getScriptForDestination (.witnessUnknown version program) = s
    have hprog := isWitnessProgram_eq_some_iff.mpr ⟨⟨hversion, hlen⟩, hs.symm⟩
    have hanchor : ¬ isPayToAnchor s := by
      intro h
      rw [eq_of_isPayToAnchor h] at hprog
      cases hprog
      exact hno ⟨rfl, rfl⟩
    refine extractedAddress_of_eq_some ?_
    rw [extractDestination, solver_of_isWitnessProgram hprog, solveWitnessProgram,
      dif_neg (by omega), dif_neg (by omega), if_neg hanchor, if_pos (by omega)]

/-- Destinations are found again in their scripts, scripts with a destination are rebuilt from it,
and the solver reports exactly the multisig scripts as such, with the number of signatures and the
keys. -/
theorem extractedAddress_inverse :
    (∀ dest, extractedAddress (getScriptForDestination dest) = dest ↔ Recognized dest) ∧
      (∀ s dest, extractDestination s = some dest → getScriptForDestination dest = s) ∧
      ∀ s required keys, solver s = .multisig required keys ↔ IsMultisigScript required keys s := by
  refine ⟨fun dest => ⟨fun h => ?_, extractedAddress_getScriptForDestination⟩, fun s dest h => ?_,
    fun s required keys => solver_eq_multisig_iff⟩
  · rw [← h]
    exact recognized_extractedAddress _
  · exact (eq_getScriptForDestination h).symm

/-- Three destinations whose scripts belong to another one. -/
theorem extractedAddress_other :
    extractedAddress (getScriptForDestination (.pubKey .invalid)) = .noDestination [0x00, 0xac] ∧
      extractedAddress (getScriptForDestination (.witnessUnknown 1 anchorBytes)) = .payToAnchor ∧
      extractedAddress (getScriptForDestination
        (.noDestination (payToScriptHashScript (Blob.null 20).data))) = .scriptHash (.null 20) := by
  decide

end Tessera.Script
