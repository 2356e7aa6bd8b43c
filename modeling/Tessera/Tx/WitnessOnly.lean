import Tessera.Script.ElementSize
import Tessera.Script.Solver
import Tessera.Tx.SigHash

/-!
# Signatures outside the witness

A signature with its hash type is 2421 bytes long, and no element of a legacy stack is longer than
520. So no signature check of a legacy script succeeds, and outputs that ask for one there cannot be
spent.
-/

namespace Tessera.Tx

open Lib Script Comp List

/-- `PQCLEAN_MLDSA44_CLEAN_CRYPTO_BYTES`. -/
def mldsaSignatureSize : Nat := 2420

/-- The verifier rejects every signature that does not have the one length. -/
def FixedSizeSignatures (P : Primitives) : Prop :=
  ∀ key msg sig, P.mldsaVerify key msg sig = true → sig.length = mldsaSignatureSize

variable {P : Primitives} {flags : ScriptFlags}

/-! ### The checker on short signatures -/

variable {t : TxInput} {code : CScript} {sv : SigVersion} {s s' : EvalState}

section

variable (hP : FixedSizeSignatures P)

include hP

private theorem TxInput.length_of_checkSig {vchSig vchPubKey : Bytes}
    (h : t.checkSig P vchSig vchPubKey code sv) : vchSig.length = mldsaSignatureSize + 1 := by
  unfold checkSig at h
  split at h
  · cases h
  next nHashType hlast =>
    rw [Bool.and_eq_true] at h
    obtain ⟨hvalid, hverify⟩ := h
    obtain ⟨raw, hraw⟩ := CPubKey.validSize_iff.mp (CPubKey.isValid_iff.mp hvalid)
    rw [CPubKey.verify_eq P hraw] at hverify
    have hsize := hP _ _ _ hverify
    have hpos : vchSig ≠ [] := by
      rintro rfl
      cases hlast
    have := length_pos_of_ne_nil hpos
    rw [length_dropLast] at hsize
    omega

private theorem checkSig_short (t : TxInput)
    {vchSig : Bytes} (hshort : vchSig.length ≤ maxScriptElementSize) (vchPubKey : Bytes)
    (code : CScript) (sv : SigVersion) : t.checkSig P vchSig vchPubKey code sv = false := by
  by_contra h
  have hlen := TxInput.length_of_checkSig hP (Bool.eq_true_of_not_eq_false h)
  rw [hlen] at hshort
  exact absurd hshort (by decide)

private theorem evalChecksig_short {sig pubkey : Bytes}
    (hshort : sig.length ≤ maxScriptElementSize) {success : Bool}
    (h : (evalChecksig flags (t.checker P) sv sig pubkey code).Returns () success ()) :
    success = false := by
  unfold evalChecksig at h
  simp only [returns_bind_iff, returns_act_iff] at h
  obtain ⟨code', _, -, b, _, ⟨hb, -⟩, _, _, -, rfl, -⟩ := h
  rw [← hb]
  exact checkSig_short hP t hshort _ _ _

private theorem checkMultisigLoop_short {sigs keys : List Bytes} {ok : Bool} (hne : sigs ≠ [])
    (hshort : ∀ sig ∈ sigs, sig.length ≤ maxScriptElementSize)
    (h : (checkMultisigLoop (t.checker P) sv code sigs keys).Returns () ok ()) : ok = false := by
  -- no key takes a signature off the list, so the keys run out first
  induction keys with
  | nil =>
    cases sigs with
    | nil => exact absurd rfl hne
    | cons sig sigs =>
      simp only [checkMultisigLoop, returns_pure_iff] at h
      exact h.1.symm
  | cons key keys ih =>
    cases sigs with
    | nil => exact absurd rfl hne
    | cons sig sigs =>
      have hfail := checkSig_short hP t (hshort sig mem_cons_self) key code sv
      unfold checkMultisigLoop at h
      simp only [returns_bind_iff, returns_act_iff] at h
      obtain ⟨b, _, ⟨hb, -⟩, h⟩ := h
      have hb' : b = false := by rw [← hb]; exact hfail
      subst hb'
      simp only [Bool.false_eq_true, if_false] at h
      split at h
      · simp only [returns_pure_iff] at h
        exact h.1.symm
      · exact ih h

end

/-! ### Instructions of legacy scripts -/

variable {verify : Bool} {stack st : List Bytes} {args : MultisigArgs} {witness : CScriptWitness}

private theorem evalCheckSigOp_short (hP : FixedSizeSignatures P) (hs : s.Sized .base)
    (h : (evalCheckSigOp flags (t.checker P) .base verify s).Returns () s' ()) :
    verify = false ∧ s'.stack.head? = some (boolVch false) := by
  unfold evalCheckSigOp at h
  split at h
  next pubkey sig st hstack =>
    simp only [returns_bind_iff, returns_ofExcept_iff] at h
    obtain ⟨success, _, hsig, st', _, ⟨hst', -⟩, rfl, -⟩ := h
    have hshort := hs sig (mem_append_left _ (by rw [hstack]; simp))
    have hfalse := evalChecksig_short hP hshort hsig
    subst hfalse
    cases verify with
    | true => cases hst'
    | false =>
      cases hst'
      exact ⟨rfl, rfl⟩
  · simp at h

private theorem evalCheckMultisigOp_short (hP : FixedSizeSignatures P) (hs : s.Sized .base)
    (hargs : multisigArgs flags s.nOpCount s.stack = .ok args) (hne : args.sigs ≠ [])
    (h : (evalCheckMultisigOp flags (t.checker P) .base verify s).Returns () s' ()) :
    verify = false ∧ s'.stack.head? = some (boolVch false) := by
  unfold evalCheckMultisigOp at h
  simp only [returns_bind_iff, returns_ofExcept_iff] at h
  obtain ⟨_, _, ⟨hargs', -⟩, code, _, -, success, _, hloop, st, _, -, h⟩ := h
  rw [hargs] at hargs'
  cases hargs'
  obtain ⟨-, -, -, -, -, -, -, hsigs⟩ := multisigArgs_eq_ok hargs
  have hshort : ∀ sig ∈ args.sigs, sig.length ≤ maxScriptElementSize := fun sig hsig =>
    hs sig (mem_append_left _ (hsigs hsig))
  have hfalse := checkMultisigLoop_short hP hne hshort hloop
  subst hfalse
  cases st with
  | nil => simp at h
  | cons dummy st =>
    simp only [returns_bind_iff, returns_ofExcept_iff] at h
    obtain ⟨_, _, -, st', _, ⟨hst', -⟩, rfl, -⟩ := h
    cases verify with
    | true => cases hst'
    | false =>
      cases hst'
      exact ⟨rfl, rfl⟩

/-! ### Outputs -/

/-- The scripts that ask for a signature themselves: pay to public key, pay to public key hash and
bare multisig. -/
def asksForSignature (s : CScript) : Bool :=
  match solver s with
  | .pubkey _ | .pubkeyhash _ | .multisig _ _ => true
  | _ => false

private theorem asksForSignature_cases {s : CScript} (h : asksForSignature s) :
    (∃ i ∈ (parse s).1, CPubKey.validSize i.data) ∨ ∃ hash : Uint160,
    s = payToPubkeyHashScript hash.data := by
  unfold asksForSignature at h
  have hmatch := solver_matches s
  cases hs : solver s with
  | pubkey pubkey =>
    rw [hs] at hmatch
    obtain ⟨i, hi, rfl, hvalid⟩ := exists_instr_of_matchPayToPubkey hmatch
    exact .inl ⟨i, hi, hvalid⟩
  | pubkeyhash hash =>
    rw [hs] at hmatch
    exact .inr ⟨hash, hmatch⟩
  | multisig required keys =>
    rw [hs] at hmatch
    exact .inl (matchMultisig_instr hmatch)
  | _ =>
    rw [hs] at h
    cases h

private theorem maxScriptElementSize_lt_of_validSize {bs : Bytes} (h : CPubKey.validSize bs) :
    maxElementSize .base < bs.length := by
  obtain ⟨raw, rfl⟩ := CPubKey.validSize_iff.mp h
  rw [length_cons, raw.size_eq]
  decide

private theorem evalScript_asksForSignature (hP : FixedSizeSignatures P) {s : CScript}
    (hask : asksForSignature s) (hstack : ∀ x ∈ stack, x.length ≤ maxElementSize .base)
    (h : (evalScript P flags (t.checker P) .base stack s).Returns () st ()) : st.head? =
      some (boolVch false) := by
  rcases asksForSignature_cases hask with ⟨i, hi, hvalid⟩ | ⟨hash, rfl⟩
  · exact absurd h (not_evalScript_of_large hi (maxScriptElementSize_lt_of_validSize hvalid))
  obtain ⟨pubkey, sig, rest, success, rfl, -, -, hsig, rfl⟩ :=
    (evalScript_payToPubkeyHashScript hash.size_eq).mp h
  have hfalse := evalChecksig_short hP (hstack sig (by simp)) hsig
  rw [hfalse]
  rfl

private theorem not_requireTrue (hst : st.head? = some (boolVch false)) :
    ¬ (requireTrue st : Comp ScriptError Unit Unit).Returns () () () := by
  intro h
  cases st with
  | nil => cases hst
  | cons x rest =>
    cases hst
    simp [requireTrue, boolVch, castToBool] at h

section

variable (hP : FixedSizeSignatures P)

include hP

/-- An output whose script asks for a signature is spent by no input. -/
theorem not_verifyScript_of_asksForSignature {scriptSig scriptPubKey : CScript}
    (hask : asksForSignature scriptPubKey) :
    ¬ (verifyScript P flags (t.checker P) scriptSig scriptPubKey witness).Returns () () () := by
  intro h
  unfold verifyScript at h
  simp only [returns_bind_iff] at h
  obtain ⟨_, _, -, stackCopy, _, hsig, stack, _, hpk, _, _, htrue, -⟩ := h
  have hsized := evalScript_sized (by simp) hsig
  exact not_requireTrue (evalScript_asksForSignature hP hask hsized hpk) htrue

private theorem collision_of_verifyScript {scriptSig redeem : CScript} (hp : .p2sh ∈ flags)
    (hask : asksForSignature redeem) (h : (verifyScript P flags (t.checker P) scriptSig
      (getScriptForDestination (.scriptHash (hash160 P redeem))) witness).Returns () () ()) :
    ∃ other rest, (evalScript P flags (t.checker P) .base [] scriptSig).Returns ()
      (other :: rest) () ∧ other ≠ redeem ∧ hash160 P other = hash160 P redeem := by
  have hlen := (hash160 P redeem).size_eq
  unfold verifyScript at h
  simp only [returns_bind_iff] at h
  obtain ⟨_, _, -, stackCopy, _, hsig, stack, _, hpk, _, _, htrue, had, _, -, had', _, hstage, -⟩ :=
    h
  have hsized := evalScript_sized (by simp) hsig
  obtain ⟨other, rest, rfl, -, rfl, -⟩ := (evalScript_payToScriptHashScript hlen).mp hpk
  have hsame : hash160 P other = hash160 P redeem := by
    by_contra hne
    have hdata : ((hash160 P other).data == (hash160 P redeem).data) = false := by
      rw [beq_eq_false_iff_ne]
      exact fun heq => hne (Blob.ext heq)
    rw [hdata] at htrue
    exact not_requireTrue rfl htrue
  refine ⟨other, rest, hsig, ?_, hsame⟩
  -- the script itself leaves false when it is run on the rest of the stack
  rintro rfl
  rw [verifyScriptHashStage, if_pos ⟨hp, isPayToScriptHash_payToScriptHashScript hlen⟩,
    verifyScriptHash] at hstage
  simp only [returns_bind_iff] at hstage
  obtain ⟨_, _, -, st, _, hrun, _, _, htrue', -⟩ := hstage
  have hrest : ∀ x ∈ rest, x.length ≤ maxElementSize .base := fun x hx =>
    hsized x (mem_cons_of_mem other hx)
  exact not_requireTrue (evalScript_asksForSignature hP hask hrest hrun) htrue'

/-! ### Signatures are witness-only -/

private theorem evalInstr_short {i : Instr} (hs : s.Sized .base) (hexec : s.vfExec.allTrue)
    (h : (evalInstr P flags (t.checker P) .base i s).Returns () s' ()) :
    ((i.opcode = .checkSig ∨ i.opcode = .checkSigVerify) →
      i.opcode = .checkSig ∧ s'.stack.head? = some (boolVch false)) ∧
    ∀ args, multisigArgs flags (s.nOpCount + 1) s.stack = .ok args → args.sigs ≠ [] →
      (i.opcode = .checkMultiSig ∨ i.opcode = .checkMultiSigVerify) →
      i.opcode = .checkMultiSig ∧ s'.stack.head? = some (boolVch false) := by
  -- a signature opcode is counted and has no operand
  have hrun : ∀ {op : Opcode}, i.opcode = op → op.hasOperand = false → op.isCounted →
      (evalSwitch P flags (t.checker P) .base i { s with nOpCount := s.nOpCount + 1 }).Returns
        () s' () := by
    rintro op rfl hoperand hcount
    exact evalSwitch_of_evalInstr h hexec hoperand hcount
  have hs' : ({ s with nOpCount := s.nOpCount + 1 } : EvalState).Sized .base := hs
  constructor
  · rintro (hop | hop)
    all_goals
      have hswitch := hrun hop rfl rfl
      rw [evalSwitch, hop] at hswitch
    · exact ⟨hop, (evalCheckSigOp_short hP hs' hswitch).2⟩
    · cases (evalCheckSigOp_short hP hs' hswitch).1
  · rintro args hargs hne (hop | hop)
    all_goals
      have hswitch := hrun hop rfl rfl
      rw [evalSwitch, hop] at hswitch
    · exact ⟨hop, (evalCheckMultisigOp_short hP hs' hargs hne hswitch).2⟩
    · cases (evalCheckMultisigOp_short hP hs' hargs hne hswitch).1

end

/-- Signatures only work in witnesses: legacy stacks stay within the element limit, so no legacy
signature check yields true, and the outputs whose script asks for one are not spendable. An output
that pays to the hash of such a script is only spent by a scriptSig that leaves another script of
that hash on the stack. -/
theorem signatures_witnessOnly (P : Primitives) (hP : FixedSizeSignatures P) :
    (∀ (σ : Type) (checker : Checker σ) (flags : ScriptFlags) (stack : List Bytes)
        (script : CScript) (c c' : σ) (s : EvalState),
      (∀ x ∈ stack, x.length ≤ maxScriptElementSize) →
      PassesThrough P flags checker .base stack script c s c' →
      ∀ x ∈ s.stack ++ s.altstack, x.length ≤ maxScriptElementSize) ∧
    (∀ (t : TxInput) (flags : ScriptFlags) (stack : List Bytes) (script : CScript)
        (s s' : EvalState) (i : Instr), (∀ x ∈ stack, x.length ≤ maxScriptElementSize) →
      PassesThrough P flags (t.checker P) .base stack script () s () →
      s.vfExec.allTrue = true →
      (evalInstr P flags (t.checker P) .base i s).Returns () s' () →
      ((i.opcode = .checkSig ∨ i.opcode = .checkSigVerify) →
        i.opcode = .checkSig ∧ s'.stack.head? = some (boolVch false)) ∧
      ∀ args, multisigArgs flags (s.nOpCount + 1) s.stack = .ok args → args.sigs ≠ [] →
        (i.opcode = .checkMultiSig ∨ i.opcode = .checkMultiSigVerify) →
        i.opcode = .checkMultiSig ∧ s'.stack.head? = some (boolVch false)) ∧
    (∀ (t : TxInput) (flags : ScriptFlags) (scriptSig scriptPubKey : CScript)
        (witness : CScriptWitness), asksForSignature scriptPubKey = true →
      ¬ (verifyScript P flags (t.checker P) scriptSig scriptPubKey witness).Returns () () ()) ∧
    ∀ (t : TxInput) (cltv csv segwit : Bool) (flags : ScriptFlags) (scriptSig redeem : CScript)
        (witness : CScriptWitness), getBlockScriptFlags cltv csv segwit ⊆ flags →
      asksForSignature redeem = true →
      (verifyScript P flags (t.checker P) scriptSig
        (getScriptForDestination (.scriptHash (hash160 P redeem))) witness).Returns () () () →
      ∃ other rest, (evalScript P flags (t.checker P) .base [] scriptSig).Returns ()
        (other :: rest) () ∧ other ≠ redeem ∧ hash160 P other = hash160 P redeem := by
  refine ⟨?_, ?_, ?_, ?_⟩
  · intro σ checker flags stack script c c' s hstack hpass
    exact PassesThrough.sized hstack hpass
  · intro t flags stack script s s' i hstack hpass hexec hrun
    exact evalInstr_short hP (PassesThrough.sized hstack hpass) hexec hrun
  · intro t flags scriptSig scriptPubKey witness hask
    exact not_verifyScript_of_asksForSignature hP hask
  · intro t cltv csv segwit flags scriptSig redeem witness hflags hask h
    exact collision_of_verifyScript hP
      (hflags (p2sh_mem_getBlockScriptFlags cltv csv segwit)) hask h

/-- With a verifier that accepts every signature of the right length: after `OP_1` the stack is
within the limit, and an output that pays to a key hash is not spendable. -/
theorem signatures_witnessOnly_of_lengthCheck :
    let P : Primitives := { (default : Primitives) with
      mldsaVerify := fun _ _ sig => sig.length == mldsaSignatureSize }
    let t : TxInput := ⟨⟨[⟨⟨.null 32, 0⟩, [], 0, []⟩], [], 2, 0⟩, 0, 0, by decide⟩
    (∀ x ∈ [ScriptNum.serialize 1], x.length ≤ maxScriptElementSize) ∧
      ∀ scriptSig witness, ¬ (verifyScript P standardScriptVerifyFlags (t.checker P) scriptSig
        (payToPubkeyHashScript (replicate 20 0)) witness).Returns () () () := by
  intro P t
  have hP : FixedSizeSignatures P := by
    intro key msg sig h
    simpa [P] using h
  have hmain := signatures_witnessOnly P hP
  constructor
  · have hpass : PassesThrough P ∅ (t.checker P) .base [] [0x51] ()
        (.running [ScriptNum.serialize 1] 0 [0x51]) () := ⟨1, by unfold Returns; rfl⟩
    exact hmain.1 Unit (t.checker P) ∅ [] [0x51] () () _ (by simp) hpass
  · intro scriptSig witness
    exact hmain.2.2.1 t _ scriptSig _ witness (by decide)

end Tessera.Tx
