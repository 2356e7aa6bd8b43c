import Tessera.Script.Checkers

/-!
# Verification flags are soft forks

Every verification flag only removes accepting runs: a script pair that is accepted under a set of
flags is accepted under each admissible subset of it. The proof compares the two runs instruction by
instruction. As long as the run with more flags does not fail, both are in the same state and ask
the checker the same questions; they only part where a whole stage of `VerifyScript` is switched
off.
-/

namespace Tessera.Script

open Lib Comp

/-- The flag sets under which no assertion of `VerifyScript` fails: `CLEANSTACK` needs `P2SH` and
`WITNESS`, and `WITNESS` needs `P2SH`. -/
def Admissible (flags : ScriptFlags) : Prop :=
  (.cleanStack ∈ flags → .p2sh ∈ flags ∧ .witness ∈ flags) ∧ (.witness ∈ flags → .p2sh ∈ flags)

instance (flags : ScriptFlags) : Decidable (Admissible flags) :=
  inferInstanceAs (Decidable (_ ∧ _))

variable {σ : Type} {P : Primitives} {A B : ScriptFlags} {checker : Checker σ}

private theorem follows_permits (h : A ⊆ B) (sv : SigVersion) : Follows Permits A B checker
    checker sv where
  bind := permits_bind
  ofExcept _ hr := permits_ofExcept (hr h)
  checkSig _ _ _ := .refl _
  checkLockTime := rfl
  checkSequence := rfl

private theorem verifyEnd_permits (h : Follows Permits A B checker checker .base)
    (hA : Admissible A) (witness : CScriptWitness) (hadWitness : Bool) (stack : List Bytes) :
    Permits (verifyEnd A witness hadWitness stack : Comp ScriptError σ Unit)
      (verifyEnd B witness hadWitness stack) := by
  refine permits_bind (permits_require _ _ fun _ => ?_) fun _ => ?_
  · by_cases hc : .cleanStack ∈ A
    · simp [hA.1 hc]
    · simp [hc]
  refine permits_bind (h.flagged _ _ _) fun _ => ?_
  refine permits_bind (permits_require _ _ fun _ => ?_) fun _ => ?_
  · by_cases hw : .witness ∈ A
    · simp [hA.2 hw]
    · simp [hw]
  · simp only [Bool.or_assoc]
    exact h.flagged _ _ _

private theorem verifyEnd_returns (hA : Admissible A) (hw : .witness ∉ A)
    (witness : CScriptWitness) (hadWitness : Bool) (stack : List Bytes) (c : σ) :
    (verifyEnd A witness hadWitness stack : Comp ScriptError σ Unit).Returns c () c := by
  have hc : .cleanStack ∉ A := fun hc => hw (hA.1 hc).2
  simp [verifyEnd, hc, hw]

private theorem verifyWitnessStage_eq_pure (hw : .witness ∉ A) (script : CScript)
    (malleated : Bool) (e : ScriptError) (witness : CScriptWitness) (hadWitness : Bool)
    (stack : List Bytes) :
    verifyWitnessStage P A checker script malleated e witness hadWitness stack =
      pure (hadWitness, stack) := by
  simp [verifyWitnessStage, hw]

private theorem verifyScriptHash_returns (h : Follows Permits A B checker checker .base)
    (hw : .witness ∉ A) {scriptSig : CScript} {witness : CScriptWitness} {hadWitness : Bool}
    {stackCopy : List Bytes} {c c' : σ} {r : Bool × List Bytes}
    (hB : (verifyScriptHash P B checker scriptSig witness hadWitness stackCopy).Returns c r c') :
    ∃ r' c'', (verifyScriptHash P A checker scriptSig witness false stackCopy).Returns
      c r' c'' := by
  unfold verifyScriptHash at hB ⊢
  simp only [returns_bind_iff, returns_require_iff] at hB ⊢
  obtain ⟨_, _, ⟨hpush, rfl⟩, hB⟩ := hB
  cases stackCopy with
  | nil => simp at hB
  | cons redeem st =>
    simp only [returns_bind_iff] at hB ⊢
    obtain ⟨st', c₁, heval, _, c₂, htrue, -⟩ := hB
    refine ⟨(false, st'), c₂, (), c, ⟨hpush, rfl⟩, st', c₁, ?_, (), c₂, htrue, ?_⟩
    · exact evalScript_follows h st redeem c st' c₁ heval
    · simp [verifyWitnessStage_eq_pure hw]

/-- Adding flags never makes a script pair acceptable. -/
theorem verifyScript_of_superset (hAB : A ⊆ B) (hA : Admissible A)
    (scriptSig scriptPubKey : CScript) (witness : CScriptWitness) (c c' : σ)
    (h : (verifyScript P B checker scriptSig scriptPubKey witness).Returns c () c') :
    ∃ c'', (verifyScript P A checker scriptSig scriptPubKey witness).Returns c () c'' := by
  have hbase : Follows Permits A B checker checker .base := follows_permits hAB _
  by_cases hw : .witness ∈ A
  · -- every stage that `B` runs is run by `A` as well
    have hp := hA.2 hw
    have hwitness := iff_of_true hw (hAB hw)
    exact ⟨c', verifyScript_follows (follows_permits hAB _) hwitness hbase (iff_of_true hp (hAB hp))
      (verifyEnd_permits hbase hA) _ _ _ _ _ _ h⟩
  · unfold verifyScript at h ⊢
    simp only [returns_bind_iff] at h ⊢
    obtain ⟨_, c₁, hreq, stackCopy, c₂, hsig, stack, c₃, hpub, _, c₄, htrue, r, c₅, hstage, r', c₆,
      hp2sh, -⟩ := h
    have hreq' := hbase.flagged _ _ _ _ _ _ hreq
    have hsig' := evalScript_follows hbase _ _ _ _ _ hsig
    have hpub' := evalScript_follows hbase _ _ _ _ _ hpub
    by_cases hsh : .p2sh ∈ A ∧ isPayToScriptHash scriptPubKey
    · -- the script is no witness program, so `B` reaches the script-hash stage in the same state
      have hnone := isWitnessProgram_of_isPayToScriptHash hsh.2
      have hc : c₄ = c₅ := by
        simp only [verifyWitnessStage, hnone] at hstage
        split at hstage <;> exact (returns_pure_iff.mp hstage).2
      subst hc
      rw [verifyScriptHashStage, if_pos ⟨hAB hsh.1, hsh.2⟩] at hp2sh
      obtain ⟨r'', c₇, hp2sh'⟩ := verifyScriptHash_returns hbase hw hp2sh
      refine ⟨c₇, (), c₁, hreq', stackCopy, c₂, hsig', stack, c₃, hpub', (), c₄, htrue,
        (false, stack), c₄, ?_, r'', c₇, ?_, verifyEnd_returns hA hw _ _ _ _⟩
      · simp [verifyWitnessStage_eq_pure hw]
      · rw [verifyScriptHashStage, if_pos hsh]
        exact hp2sh'
    · refine ⟨c₄, (), c₁, hreq', stackCopy, c₂, hsig', stack, c₃, hpub', (), c₄, htrue,
        (false, stack), c₄, ?_, (false, stack), c₄, ?_, verifyEnd_returns hA hw _ _ _ _⟩
      · simp [verifyWitnessStage_eq_pure hw]
      · simp [verifyScriptHashStage, hsh]

/-- Under `P2SH` and `WITNESS`, a script hash program is spent by showing its script, and not
without it. Under fewer flags it is spent as well. -/
theorem verifyScript_of_superset_witnessScriptHash :
    let checker : Checker Unit := ⟨fun _ _ _ _ c => (false, c), fun _ => false, fun _ => false⟩
    let script : CScript := [0x51, 0x75, 0x51]
    let program : CScript := [0x00, 0x20] ++ (Primitives.repeating.sha3_256 script).data
    (verifyScript .repeating {.p2sh, .witness} checker [] program [script]).Returns () () () ∧
      (verifyScript .repeating {.p2sh, .witness} checker [] program []).exec () =
        (.error .witnessProgramWitnessEmpty, ()) ∧
      ∀ A ⊆ {ScriptFlag.p2sh}, ∃ c, (verifyScript .repeating A checker [] program [script]).Returns
        () () c := by
  intro checker script program
  have hspent : (verifyScript .repeating {.p2sh, .witness} checker [] program [script]).Returns
    () () () := rfl
  refine ⟨hspent, rfl, fun A hA => verifyScript_of_superset (hA.trans (by decide)) ?_ _ _
    _ () () hspent⟩
  obtain rfl | rfl := Finset.subset_singleton_iff.mp hA
  · decide
  · decide

end Tessera.Script
